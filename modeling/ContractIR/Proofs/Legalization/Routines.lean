import ContractIR.Proofs.Legalization.Building
import ContractIR.Proofs.Module.TopLevel
import ContractIR.Proofs.Typing.Scopes
import ContractIR.Proofs.Typing.Steps

/-!
# Generated code is well-typed

The entry function and the returns from contract code are written by routines.  Each of them
succeeds at any cursor that knows what it is given, and writes typed code.

## Main definitions

* `ContractIR.EraVM.entryCode` — the code of the entry function up to its branch.
* `ContractIR.EraVM.openEntry` — the entry function with three empty blocks.

## Main results

* `ContractIR.EraVM.writes_storeCalldata`, `writes_storeExtra` — the parts of the entry function.
* `ContractIR.EraVM.writes_deployReturn`, `writes_runtimeReturn` — the returns.
* `ContractIR.EraVM.run_buildEntry` — the entry function is opened, and then its blocks are filled.
* `ContractIR.EraVM.exists_buildEntry` — the entry function as a whole.
-/

set_option autoImplicit false

namespace ContractIR.EraVM

open Cursor

variable {env : Env} {c : Cursor env}

/-! ## Parts of the entry function -/

/-- A word. -/
theorem writes_wordConstant (n : Nat) :
    Writes (wordConstant n) c fun v d => d.Knows v Ty.word := writes_integer rfl _ _

/-- Storing a value in a global. -/
theorem writes_storeGlobal {g : Global} (hg : env.symbols g.name) {v : ValueId} {t : Ty}
    (hv : c.Knows v t) : Writes (storeGlobal v g) c fun _ _ => True := by
  refine (writes_addressOf hg _).bind fun address d _ hd haddress => ?_
  refine (writes_store (hd.knows hv) haddress).bind fun _ e _ _ _ => ?_
  exact .pure trivial

/-- Storing a value in some globals. -/
theorem writes_storeGlobals (hglobals : ∀ g : Global, env.symbols g.name) {v : ValueId} {t : Ty}
    (hv : c.Knows v t) (gs : List Global) :
    Writes (storeGlobals v gs) c fun _ _ => True := by
  induction gs generalizing c with
  | nil => exact .pure trivial
  | cons g gs ih =>
    exact (writes_storeGlobal (hglobals g) hv).bind fun _ d _ hd _ => ih (hd.knows hv)

/-- The address of a slot of the extra words. -/
theorem writes_extraSlot {base : ValueId} {s : Nat} (hbase : c.Knows base (.ptr s)) (slot : Nat) :
    Writes (extraSlot base slot) c fun v d => d.Knows v (.ptr s) := by
  refine (writes_wordConstant 0).bind fun first d _ hd hfirst => ?_
  refine (writes_wordConstant slot).bind fun index e _ he hindex => ?_
  refine writes_gep (he.knows (hd.knows hbase)) (fun v hv => ?_) _
  rcases List.mem_pair.1 hv with rfl | rfl
  · exact ⟨_, he.knows hfirst⟩
  · exact ⟨_, hindex⟩

/-- Storing words in the slots of the extra words. -/
theorem writes_storeExtra {base : ValueId} {s : Nat} (hbase : c.Knows base (.ptr s)) (slot : Nat)
    {vs : List ValueId} (hvs : ∀ v ∈ vs, c.Knows v Ty.word) :
    Writes (storeExtra base slot vs) c fun _ _ => True := by
  induction vs generalizing c slot with
  | nil => exact .pure trivial
  | cons v vs ih =>
    refine (writes_extraSlot hbase slot).bind fun address d _ hd haddress => ?_
    refine (writes_store (hd.knows (hvs v (.head _))) haddress).bind fun _ e _ he _ => ?_
    exact ih (he.knows (hd.knows hbase)) (slot + 1) fun w hw =>
      he.knows (hd.knows (hvs w (.tail _ hw)))

/-- Setting what the ABI keeps about the call data.

**Proof sketch.** The code step by step (`Writes.bind`).  A value that one step makes is still
known behind the next ones (`knows`). -/
theorem writes_storeCalldata (hglobals : ∀ g : Global, env.symbols g.name) {calldata : ValueId}
    {s : Nat} (hc : c.Knows calldata (.ptr s)) :
    Writes (storeCalldata calldata) c fun _ _ => True := by
  refine (writes_storeGlobal (hglobals .calldataPtr) hc).bind fun _ d₁ _ h₁ _ => ?_
  refine (writes_ptrToInt (h₁.knows hc) _).bind fun number d₂ _ h₂ hnumber => ?_
  refine (writes_wordConstant lengthShift).bind fun shift d₃ _ h₃ hshift => ?_
  refine (writes_llvmBinary rfl (h₃.knows hnumber) hshift).bind fun shifted d₄ _ h₄ hshifted => ?_
  refine (writes_wordConstant lengthMask).bind fun mask d₅ _ h₅ hmask => ?_
  refine (writes_llvmBinary rfl (h₅.knows hshifted) hmask).bind fun length d₆ _ h₆ hlength => ?_
  refine (writes_addressOf (hglobals .calldataSize) _).bind fun address d₇ _ h₇ haddress => ?_
  refine (writes_store (h₇.knows hlength) haddress).bind fun _ d₈ _ h₈ _ => ?_
  refine (writes_load (h₈.knows haddress) _).bind fun size d₉ _ h₉ hsize => ?_
  have hbase := h₉.knows (h₈.knows (h₇.knows (h₆.knows (h₅.knows (h₄.knows (h₃.knows
    (h₂.knows (h₁.knows hc))))))))
  refine (writes_gep hbase (fun v hv => ?_) _).bind fun behind d _ hd hbehind => ?_
  · rw [List.mem_singleton.1 hv]
    exact ⟨_, hsize⟩
  · exact writes_storeGlobals hglobals hbehind _

/-! ## Returns from contract code -/

/-- A word at the high level. -/
theorem writes_constant (n : Nat) :
    Writes (Build.constant (n : Int) Ty.word) c fun v d => d.Knows v Ty.word :=
  writes_integer rfl _ _

/-- Storing a word on the auxiliary heap. -/
theorem writes_storeAux (offset word : Nat) :
    Writes (storeAux offset word) c fun _ _ => True := by
  refine (writes_constant offset).bind fun address d _ hd haddress => ?_
  refine (writes_intToPtr haddress _).bind fun pointer e _ he hpointer => ?_
  refine (writes_constant word).bind fun content f _ hf hcontent => ?_
  refine (writes_store hcontent (hf.knows hpointer)).bind fun _ _ _ _ _ => ?_
  exact .pure trivial

/-- Computing the length of what a constructor returns. -/
theorem writes_returnedLength : Writes returnedLength c fun v d => d.Knows v Ty.word := by
  refine (writes_constant immutablesSize).bind fun size d _ hd hsize => ?_
  refine (writes_constant 2).bind fun two e _ he htwo => ?_
  refine (writes_binary rfl rfl (he.knows hsize) htwo).bind fun doubled f _ hf hdoubled => ?_
  refine (writes_constant (fieldBytes * 2)).bind fun header g _ hg hheader => ?_
  exact writes_binary rfl rfl (hg.knows hdoubled) hheader

/-- Calling the return function with three words. -/
theorem writes_callReturn (hreturn : env.symbols returnName) {offset length mode : ValueId}
    (ho : c.Knows offset Ty.word) (hl : c.Knows length Ty.word) (hm : c.Knows mode Ty.word) :
    Writes (Build.funcCall returnName [offset, length, mode] []) c fun _ _ => True :=
  writes_call rfl rfl hreturn (.cons ho (.cons hl (.cons hm .nil)))

/-- Returning from deploy code. -/
theorem writes_deployReturn (hreturn : env.symbols returnName) :
    Writes deployReturn c fun _ _ => True := by
  refine (writes_storeAux _ _).bind fun _ d₁ _ _ _ => ?_
  refine (writes_storeAux _ _).bind fun _ d₂ _ _ _ => ?_
  refine writes_returnedLength.bind fun length d₃ _ _ hlength => ?_
  refine (writes_constant constructorOffset).bind fun offset d₄ _ h₄ hoffset => ?_
  refine (writes_constant ReturnMode.auxHeap.number).bind fun mode d₅ _ h₅ hmode => ?_
  refine (writes_callReturn hreturn (h₅.knows hoffset) (h₅.knows (h₄.knows hlength)) hmode).bind
    fun _ _ _ _ _ => ?_
  exact .pure trivial

/-- Returning from runtime code. -/
theorem writes_runtimeReturn (hreturn : env.symbols returnName) {offset length : ValueId}
    (ho : c.Knows offset Ty.word) (hl : c.Knows length Ty.word) :
    Writes (runtimeReturn offset length) c fun _ _ => True := by
  refine (writes_constant ReturnMode.heap.number).bind fun mode d _ hd hmode => ?_
  refine (writes_callReturn hreturn (hd.knows ho) (hd.knows hl) hmode).bind fun _ _ _ _ _ => ?_
  exact .pure trivial

/-! ## The entry function -/

/-- Calls a function that does not come back, where the block is chosen before. -/
theorem ends_callForever {callee : String} (h : abiSignature? callee = some ⟨[], []⟩)
    (hcallee : env.symbols callee) :
    Ends (do
      let _ ← Build.Llvm.call callee [] []
      let _ ← Build.Llvm.unreachable
      return () : Build Unit) c (.llvm .unreachable) := by
  refine (writes_call rfl h hcallee .nil).bind_ends fun _ d _ _ _ => ?_
  exact ends_unreachable.bind_pure _

/-- An empty block is ended by the call of a function that does not come back. -/
theorem exists_callForever {b : Builder} (h : b.ir.WellTyped env) (x : BlockId) (callee : String)
    (hx : x.index < b.ir.blocks.size) (hops : (b.ir.block x).ops = [])
    (hsignature : abiSignature? callee = some ⟨[], []⟩) (hcallee : env.symbols callee) :
    ∃ d : Builder, (callForever x callee).run b = .ok () d ∧ d.ir.WellTyped env ∧
      Module.Extends (· = x) b.ir d.ir ∧ d.ir.blocks.size = b.ir.blocks.size ∧ d.ir.Ended x := by
  obtain ⟨_, d, hrun, hext, hsize, hended, -⟩ :=
    (ends_callForever (c := .atEnd b h x hx) hsignature hcallee).ended rfl
      (by simp [Cursor.atEnd, hops]) rfl
  exact ⟨d.builder, hrun, d.typed, hext, hsize, hended⟩

/-- The code of the entry function up to its branch, where the block is chosen before. -/
def entryCode (entry deployBlock runtimeBlock : BlockId) : Build OpId := do
  let args ← Build.argsOf entry
  let calldata := args.getD 0 default
  let callFlags := args.getD 1 default
  let zero ← wordConstant 0
  storeGlobals zero Global.words
  let extra ← addressOf .extraAbiData
  storeExtra extra 0 (List.replicate extraWords zero)
  storeCalldata calldata
  storeGlobal callFlags .callFlags
  storeExtra extra 0 (args.drop 2)
  let one ← wordConstant 1
  let bit ← Build.Llvm.binary .and callFlags one
  let isDeploy ← Build.Llvm.icmp .eq bit one
  Build.Llvm.condBr isDeploy deployBlock runtimeBlock

/-- The body of the entry function is its code up to the branch, and then two calls. -/
theorem buildEntryBody_eq (entry deployBlock runtimeBlock : BlockId) :
    buildEntryBody entry deployBlock runtimeBlock = (do
      Build.toEnd entry
      let _ ← entryCode entry deployBlock runtimeBlock
      callForever deployBlock deployName
      callForever runtimeBlock runtimeName) := by
  simp [buildEntryBody, entryCode, dispatch, bind_assoc]

/-- The end of that code: a branch on the lowest bit of the call flags. -/
def testFlags (callFlags : ValueId) (deployBlock runtimeBlock : BlockId) : Build OpId := do
  let one ← wordConstant 1
  let bit ← Build.Llvm.binary .and callFlags one
  let isDeploy ← Build.Llvm.icmp .eq bit one
  Build.Llvm.condBr isDeploy deployBlock runtimeBlock

/-- The branch on the call flags is typed if it leads to blocks of the region that it stands in. -/
theorem ends_testFlags {callFlags : ValueId} (hflag : c.Knows callFlags Ty.word)
    {deployBlock runtimeBlock : BlockId}
    (hdeploy : deployBlock.index < c.ir.blocks.size ∧
      (c.ir.block deployBlock).parent = (c.ir.block c.block).parent)
    (hruntime : runtimeBlock.index < c.ir.blocks.size ∧
      (c.ir.block runtimeBlock).parent = (c.ir.block c.block).parent) :
    Ends (testFlags callFlags deployBlock runtimeBlock) c (.llvm .condBr) := by
  refine (writes_wordConstant 1).bind_ends fun one d₁ _ h₁ hone => ?_
  refine (writes_llvmBinary rfl (h₁.knows hflag) hone).bind_ends fun bit d₂ _ h₂ hbit => ?_
  refine (writes_icmp .eq hbit (h₂.knows hone)).bind_ends fun isDeploy e _ he hisDeploy => ?_
  -- no block was made since, so the branch stays inside its region
  have hlead := (h₁.trans h₂).trans he
  exact ends_condBr hisDeploy (hlead.sameRegion hdeploy) (hlead.sameRegion hruntime)

/-- The code of the entry function is typed, up to its branch.

**Proof sketch.** The arguments of the block are the pointer, the flags and the extra words, of
the types that the signature gives.  The code is then followed step by step up to its branch,
whose targets are blocks of the same region. -/
theorem ends_entryCode (hglobals : ∀ g : Global, env.symbols g.name)
    {deployBlock runtimeBlock : BlockId}
    (hargs : c.ir.typesOf (c.ir.block c.block).args = entrySignature.inputs)
    (hdeploy : deployBlock.index < c.ir.blocks.size ∧
      (c.ir.block deployBlock).parent = (c.ir.block c.block).parent)
    (hruntime : runtimeBlock.index < c.ir.blocks.size ∧
      (c.ir.block runtimeBlock).parent = (c.ir.block c.block).parent) :
    Ends (entryCode c.block deployBlock runtimeBlock) c (.llvm .condBr) := by
  -- the pointer to the call data, the call flags, and the extra words
  obtain ⟨calldata, more, hmore, hcalldata, hwords⟩ := List.map_eq_cons_iff.1 hargs
  obtain ⟨callFlags, extras, rfl, hflags, hextras⟩ := List.map_eq_cons_iff.1 hwords
  have hknown : ∀ v ∈ (c.ir.block c.block).args, c.Knows v (c.ir.typeOf v) := fun v hv =>
    ⟨rfl, .inl hv⟩
  have hdata : c.Knows calldata AddressSpace.generic.ptr := by
    rw [← hcalldata]
    exact hknown _ (by simp [hmore])
  have hflag : c.Knows callFlags Ty.word := by
    rw [← hflags]
    exact hknown _ (by simp [hmore])
  have hextra : ∀ v ∈ extras, c.Knows v Ty.word := by
    intro v hv
    have hty : c.ir.typeOf v = Ty.word := by
      apply List.eq_of_mem_replicate
      rw [← hextras]
      exact List.mem_map_of_mem hv
    rw [← hty]
    exact hknown v (by simp [hmore, hv])
  have hread : Writes (Build.argsOf c.block) c fun args d =>
      args = (c.ir.block c.block).args ∧ c = d := .of_run rfl
  refine hread.bind_ends fun args d _ _ hd => ?_
  obtain ⟨rfl, rfl⟩ := hd
  rw [hmore]
  simp only [List.getD_cons_zero, List.getD_cons_succ, List.drop_succ_cons, List.drop_zero]
  refine (writes_wordConstant 0).bind_ends fun zero d₁ _ h₁ hzero => ?_
  refine (writes_storeGlobals hglobals hzero _).bind_ends fun _ d₂ _ h₂ _ => ?_
  refine (writes_addressOf (hglobals .extraAbiData) _).bind_ends fun extra d₃ _ h₃ hbase => ?_
  refine (writes_storeExtra hbase 0 fun v hv => ?_).bind_ends fun _ d₄ _ h₄ _ => ?_
  · rw [List.eq_of_mem_replicate hv]
    exact h₃.knows (h₂.knows hzero)
  have h₁₄ := ((h₁.trans h₂).trans h₃).trans h₄
  refine (writes_storeCalldata hglobals (h₁₄.knows hdata)).bind_ends fun _ d₅ _ h₅ _ => ?_
  refine (writes_storeGlobal (hglobals _) (h₅.knows (h₁₄.knows hflag))).bind_ends
    fun _ d₆ _ h₆ _ => ?_
  have h₁₆ := (h₁₄.trans h₅).trans h₆
  refine (writes_storeExtra (h₆.knows (h₅.knows (h₄.knows hbase))) 0 fun v hv =>
    h₁₆.knows (hextra v hv)).bind_ends fun _ d₇ _ h₇ _ => ?_
  have h₁₇ := h₁₆.trans h₇
  exact ends_testFlags (h₇.knows (h₁₆.knows hflag)) (h₁₇.sameRegion hdeploy)
    (h₁₇.sameRegion hruntime)

/-- The three blocks of the entry function are filled and ended.

**Proof sketch.** The three blocks differ, so filling one leaves the others empty.  Each is
filled and ended by its own lemma: `ends_entryCode` for the first, `exists_callForever` for the
other two. -/
theorem exists_buildEntryBody {b : Builder} (h : b.ir.WellTyped env)
    (hglobals : ∀ g : Global, env.symbols g.name) (hdeploy : env.symbols deployName)
    (hruntime : env.symbols runtimeName) {entry deployBlock runtimeBlock : BlockId} {r : RegionId}
    (hblocks : ∀ x ∈ [entry, deployBlock, runtimeBlock], x.index < b.ir.blocks.size ∧
      (b.ir.block x).ops = [] ∧ (b.ir.block x).parent = r)
    (hdistinct : [entry, deployBlock, runtimeBlock].Nodup)
    (hargs : b.ir.typesOf (b.ir.block entry).args = entrySignature.inputs) :
    ∃ d : Builder, (buildEntryBody entry deployBlock runtimeBlock).run b = .ok () d ∧
      d.ir.WellTyped env ∧ d.ir.blocks.size = b.ir.blocks.size ∧
      Module.Extends (· ∈ [entry, deployBlock, runtimeBlock]) b.ir d.ir ∧
      ∀ x ∈ [entry, deployBlock, runtimeBlock], d.ir.Ended x := by
  obtain ⟨hlt₁, hops₁, hparent₁⟩ := hblocks entry (by simp)
  obtain ⟨hlt₂, hops₂, hparent₂⟩ := hblocks deployBlock (by simp)
  obtain ⟨hlt₃, hops₃, hparent₃⟩ := hblocks runtimeBlock (by simp)
  have hne₁₂ : entry ≠ deployBlock := by
    rintro rfl
    simp at hdistinct
  have hne₁₃ : entry ≠ runtimeBlock := by
    rintro rfl
    simp at hdistinct
  have hne₂₃ : deployBlock ≠ runtimeBlock := by
    rintro rfl
    simp at hdistinct
  obtain ⟨_, c₁, hrun₁, hext₁, hsize₁, hended₁, -⟩ :=
    (ends_entryCode (c := .atEnd b h entry hlt₁) hglobals hargs ⟨hlt₂, hparent₂.trans hparent₁.symm⟩
      ⟨hlt₃, hparent₃.trans hparent₁.symm⟩).ended rfl (by simp [Cursor.atEnd, hops₁]) rfl
  have hlt : ∀ {x : BlockId}, x.index < b.ir.blocks.size → x.index < c₁.ir.blocks.size :=
    fun hx => hsize₁.symm ▸ hx
  obtain ⟨d₂, hrun₂, htyped₂, hext₂, hsize₂, hended₂⟩ :=
    exists_callForever c₁.typed deployBlock deployName (hlt hlt₂)
      ((congrArg Block.ops (hext₁.blocks deployBlock hlt₂ hne₁₂.symm)).trans hops₂) rfl hdeploy
  have hops₃' : (d₂.ir.block runtimeBlock).ops = [] := by
    rw [hext₂.blocks runtimeBlock (hlt hlt₃) hne₂₃.symm]
    exact (congrArg Block.ops (hext₁.blocks runtimeBlock hlt₃ hne₁₃.symm)).trans hops₃
  obtain ⟨d₃, hrun₃, htyped₃, hext₃, hsize₃, hended₃⟩ :=
    exists_callForever htyped₂ runtimeBlock runtimeName (hsize₂.symm ▸ hlt hlt₃) hops₃' rfl
      hruntime
  have hext : Module.Extends (· ∈ [entry, deployBlock, runtimeBlock]) b.ir d₃.ir :=
    ((hext₁.weaken fun x hx => by simp [Cursor.atEnd] at hx; simp [hx]).trans
      (hext₂.weaken fun x hx => by simp [hx])).trans (hext₃.weaken fun x hx => by simp [hx])
  refine ⟨d₃, ?_, htyped₃, hsize₃.trans (hsize₂.trans hsize₁), hext, fun x hx => ?_⟩
  · rw [buildEntryBody_eq]
    have hrun₁ : (entryCode entry deployBlock runtimeBlock).run
      { b with point := some ⟨entry, none⟩ } = .ok _ c₁.builder := hrun₁
    simp only [EStateM.run_bind, Build.toEnd, EStateM.run_modify, hrun₁, hrun₂, hrun₃]
  · simp only [List.mem_cons, List.not_mem_nil, or_false] at hx
    rcases hx with rfl | rfl | rfl
    · have hended : d₂.ir.Ended x :=
        hended₁.of_extends c₁.typed.toLinked hext₂ (hlt hlt₁) hne₁₂
      exact hended.of_extends htyped₂.toLinked hext₃ (hsize₂.symm ▸ hlt hlt₁) hne₁₃
    · exact hended₂.of_extends htyped₂.toLinked hext₃ (hsize₂.symm ▸ hlt hlt₂) hne₂₃
    · exact hended₃

/-- What a low-level function is made of. -/
def functionSpec (name : String) (signature : Signature) (linkage : String) : Module.OpSpec where
  kind := .llvm .func
  attrs := .ofList
    [(AttrName.symName, .str name), (AttrName.functionType, .type signature.toTy),
      (AttrName.linkage, .str linkage)]
  regions := 1

/-- Creating a low-level function with a body opens a scope. -/
theorem run_func {b : Builder} {around : BlockId} (hp : b.point = some ⟨around, none⟩)
    (name : String) (signature : Signature) (linkage : String) :
    (Build.Llvm.func name signature linkage true).run b =
      .ok (⟨b.ir.ops.size⟩, some ⟨b.ir.blocks.size⟩)
        { b with
          ir := b.ir.addScope (functionSpec name signature linkage) b.location around
            signature.inputs } := by
  have hscope := run_scope hp (functionSpec name signature linkage) rfl signature.inputs
  have hsame : Build.Llvm.func name signature linkage true = (do
      let made ← (do
        let id ← Build.op (functionSpec name signature linkage)
        let entry ← Build.appendBlock id 0 signature.inputs
        return (id, entry) : Build (OpId × BlockId))
      return (made.1, some made.2)) := by
    simp [Build.Llvm.func, functionSpec]
  rw [hsame, EStateM.run_bind, hscope]
  rfl

section Functions

variable {m : Module}

/-- A new low-level function, still without code, keeps a module well-typed. -/
theorem wellTyped_addFunction (h : m.WellTyped env) (hm : m.TopLevel) (name : String)
    (signature : Signature) (hinputs : ∀ t ∈ signature.inputs, t.element? = none)
    (linkage : String) (location : Location) :
    (m.addScope (functionSpec name signature linkage) location ⟨0⟩ signature.inputs).WellTyped
      env := by
  obtain ⟨hlt, howner⟩ := Module.owner?_body h.toLinked hm.body
  refine h.addScope_function hlt rfl rfl rfl rfl rfl rfl (fun c hc => ?_) hinputs
  rw [howner] at hc
  cases hc

/-- The module with the entry function at the end of a block, all of whose three blocks are still
empty. -/
def openEntry (m : Module) (location : Location) (around : BlockId) : Module :=
  let opened := m.addScope (functionSpec entryName entrySignature "external") location around
    entrySignature.inputs
  ((opened.appendBlock ⟨m.regions.size⟩ []).2.appendBlock ⟨m.regions.size⟩ []).2

section OpenEntry

variable (m : Module) (location : Location) (around : BlockId)

/-- Opening the entry function makes one operation. -/
@[simp] theorem size_ops_openEntry : (openEntry m location around).ops.size = m.ops.size + 1 := by
  simp [openEntry]

/-- Opening the entry function makes three blocks. -/
@[simp] theorem size_blocks_openEntry :
    (openEntry m location around).blocks.size = m.blocks.size + 3 := by
  simp [openEntry]

/-- Opening the entry function makes one region. -/
@[simp] theorem size_regions_openEntry :
    (openEntry m location around).regions.size = m.regions.size + 1 := by
  simp [openEntry, functionSpec]

/-- The entry function is the only new operation. -/
theorem op_openEntry (id : OpId) :
    (openEntry m location around).op id =
      if id = ⟨m.ops.size⟩ then
        (functionSpec entryName entrySignature "external").toOp location m.values.size
          m.regions.size (some around)
      else m.op id := by
  simp only [openEntry, Module.op_appendBlock, Module.op_addScope]

/-- Three blocks are new, and one lists the entry function. -/
theorem block_openEntry (b : BlockId) :
    (openEntry m location around).block b =
      if b = ⟨m.blocks.size + 2⟩ ∨ b = ⟨m.blocks.size + 1⟩ then ⟨[], [], ⟨m.regions.size⟩⟩
      else (m.addScope (functionSpec entryName entrySignature "external") location around
        entrySignature.inputs).block b := by
  simp only [openEntry, Module.block_appendBlock, Module.size_blocks_appendBlock,
    Module.size_blocks_addScope]
  split <;> split <;> simp_all

/-- The region of the entry function lists its three blocks. -/
theorem region_openEntry :
    (openEntry m location around).region ⟨m.regions.size⟩ =
      ⟨[⟨m.blocks.size⟩, ⟨m.blocks.size + 1⟩, ⟨m.blocks.size + 2⟩], some ⟨m.ops.size⟩⟩ := by
  have hfirst := m.region_addScope_new (functionSpec entryName entrySignature "external") location
    around entrySignature.inputs Nat.zero_lt_one
  have hone : (functionSpec entryName entrySignature "external").regions = 1 := rfl
  simp [openEntry, Module.region_appendBlock, hfirst, hone]

/-- The new blocks are empty. -/
theorem block_openEntry_new {b : BlockId}
    (hb : b ∈ [(⟨m.blocks.size⟩ : BlockId), ⟨m.blocks.size + 1⟩, ⟨m.blocks.size + 2⟩]) :
    b.index < (openEntry m location around).blocks.size ∧
      ((openEntry m location around).block b).ops = [] ∧
      ((openEntry m location around).block b).parent = ⟨m.regions.size⟩ := by
  rw [size_blocks_openEntry, block_openEntry]
  simp only [List.mem_cons, List.not_mem_nil, or_false] at hb
  rcases hb with rfl | rfl | rfl
  · rw [if_neg (by simp), Module.block_addScope, if_pos rfl]
    exact ⟨by simp, rfl, rfl⟩
  · exact ⟨by simp, by simp, by simp⟩
  · exact ⟨by simp, by simp, by simp⟩

/-- The block around the entry function lists it last. -/
theorem ops_openEntry (haround : around.index < m.blocks.size) :
    ((openEntry m location around).block around).ops = (m.block around).ops ++ [⟨m.ops.size⟩] := by
  have hne : ∀ k, around ≠ ⟨m.blocks.size + k⟩ := by
    rintro k rfl
    exact absurd haround (by simp)
  rw [block_openEntry, if_neg (by simp [hne 1, hne 2]), Module.block_addScope,
    if_neg (by simpa using hne 0), if_pos ⟨rfl, haround⟩]

/-- The arguments of the entry function are new values. -/
theorem args_openEntry :
    ((openEntry m location around).block ⟨m.blocks.size⟩).args =
      (List.range entrySignature.inputs.length).map fun i => ⟨m.values.size + i⟩ := by
  rw [block_openEntry, if_neg (by simp), Module.block_addScope, if_pos rfl]
  rfl

/-- The first block takes the arguments of the entry function. -/
theorem typesOf_args_openEntry :
    (openEntry m location around).typesOf
      ((openEntry m location around).block ⟨m.blocks.size⟩).args = entrySignature.inputs := by
  rw [block_openEntry, if_neg (by simp), openEntry, Module.typesOf_appendBlock_nil,
    Module.typesOf_appendBlock_nil]
  exact Module.typesOf_args_addScope m _ _ _ _

/-- Building the entry function opens it and fills its blocks.

**Proof sketch.** The function is opened with its first block and two blocks are appended to its
region; each of these runs is computed, which leaves the filling. -/
theorem run_buildEntry :
    (buildEntry location).run m =
      match (buildEntryBody ⟨m.blocks.size⟩ ⟨m.blocks.size + 1⟩ ⟨m.blocks.size + 2⟩).run
        ⟨openEntry m location m.bodyBlock, some ⟨m.bodyBlock, none⟩, location⟩ with
      | .ok _ b => .ok ⟨m.ops.size⟩ b.ir
      | .error e b => .error (.ir e) b.ir := by
  let m₁ := m.addScope (functionSpec entryName entrySignature "external") location m.bodyBlock
    entrySignature.inputs
  have hfunc : (Build.Llvm.func entryName entrySignature "external" true).run
      ⟨m, some ⟨m.bodyBlock, none⟩, location⟩ =
      .ok (⟨m.ops.size⟩, some ⟨m.blocks.size⟩) ⟨m₁, some ⟨m.bodyBlock, none⟩, location⟩ :=
    run_func rfl _ _ _
  have hregions : (m₁.op ⟨m.ops.size⟩).regions[0]? = some ⟨m.regions.size⟩ := by
    rw [Module.op_addScope, if_pos rfl]
    rfl
  have happend₁ : (Build.appendBlock ⟨m.ops.size⟩ 0 []).run
      ⟨m₁, some ⟨m.bodyBlock, none⟩, location⟩ =
      .ok ⟨m.blocks.size + 1⟩
        ⟨(m₁.appendBlock ⟨m.regions.size⟩ []).2, some ⟨m.bodyBlock, none⟩, location⟩ := by
    rw [run_appendBlock (b := ⟨m₁, _, _⟩) hregions]
    simp [m₁]
  have happend₂ : (Build.appendBlock ⟨m.ops.size⟩ 0 []).run
      ⟨(m₁.appendBlock ⟨m.regions.size⟩ []).2, some ⟨m.bodyBlock, none⟩, location⟩ =
      .ok ⟨m.blocks.size + 2⟩
        ⟨openEntry m location m.bodyBlock, some ⟨m.bodyBlock, none⟩, location⟩ := by
    rw [run_appendBlock (b := ⟨(m₁.appendBlock ⟨m.regions.size⟩ []).2, _, _⟩) hregions]
    simp [m₁, openEntry]
  rw [buildEntry, run_build]
  simp only [Builder.new, Builder.atEnd, EStateM.run_bind, run_liftM, hfunc, Transform.expect,
    EStateM.run_pure, happend₁, happend₂]
  cases (buildEntryBody ⟨m.blocks.size⟩ ⟨m.blocks.size + 1⟩ ⟨m.blocks.size + 2⟩).run
    ⟨openEntry m location m.bodyBlock, some ⟨m.bodyBlock, none⟩, location⟩ <;> rfl

end OpenEntry

/-- The entry function is built at the end of the body, and its blocks are ended.

**Proof sketch.** The opened function is typed, as a declared function with three blocks without
code.  These are filled by `exists_buildEntryBody`, which changes nothing else but adds code. -/
theorem exists_buildEntry (h : m.WellTyped env) (hm : m.TopLevel)
    (hglobals : ∀ g : Global, env.symbols g.name) (hdeploy : env.symbols deployName)
    (hruntime : env.symbols runtimeName) (location : Location) :
    ∃ n, (buildEntry location).run m = .ok ⟨m.ops.size⟩ n ∧ n.WellTyped env ∧
      m.Joins n ⟨m.ops.size⟩ entryName ∧ Module.Extends (· = ⟨0⟩) m n ∧
      ∀ b : BlockId, m.blocks.size ≤ b.index → b.index < n.blocks.size → n.Ended b := by
  obtain ⟨hlt, -⟩ := Module.owner?_body h.toLinked hm.body
  -- the function with its first block, and then two more blocks
  have htyped : (openEntry m location ⟨0⟩).WellTyped env := by
    have hfirst := m.region_addScope_new (functionSpec entryName entrySignature "external")
      location ⟨0⟩ entrySignature.inputs Nat.zero_lt_one
    refine ((wellTyped_addFunction h hm entryName entrySignature (by decide) _ _).appendBlock
      (by rw [hfirst]; simp)).appendBlock ?_
    rw [Module.region_appendBlock]
    split <;> simp [hfirst]
  obtain ⟨d, hrun, htyped', hsize, hext, hended⟩ :=
    exists_buildEntryBody (b := ⟨openEntry m location ⟨0⟩, some ⟨⟨0⟩, none⟩, location⟩) htyped
      hglobals hdeploy hruntime (fun x hx => block_openEntry_new m location ⟨0⟩ hx) (by simp)
      (typesOf_args_openEntry m location ⟨0⟩)
  have hrun' : (buildEntry location).run m = .ok ⟨m.ops.size⟩ d.ir := by
    rw [run_buildEntry, hm.bodyBlock_eq, hrun]
  have hnew : d.ir.op ⟨m.ops.size⟩ = (functionSpec entryName entrySignature "external").toOp
      location m.values.size m.regions.size (some ⟨0⟩) := by
    rw [hext.ops ⟨m.ops.size⟩ (by simp), op_openEntry, if_pos rfl]
  have hops : (d.ir.block ⟨0⟩).ops = Module.placeAt none ⟨m.ops.size⟩ (m.block ⟨0⟩).ops := by
    rw [hext.blocks ⟨0⟩ (by simp) (by simp [Nat.ne_of_lt hlt]), ops_openEntry m location ⟨0⟩ hlt]
    rfl
  have hgrown := extends_buildEntry (B := (· = ⟨0⟩)) hm.body rfl hrun'
  refine ⟨d.ir, hrun', htyped', .of_extends hgrown h.toLinked none hops ?_ ?_ ?_, hgrown,
    fun b hge hb => ?_⟩
  · rw [Module.kind, hnew]
    rfl
  · rw [Module.kind, hnew]
    rfl
  · rw [Module.symName?, Module.attr?, hnew]
    rfl
  · apply hended
    rw [hsize] at hb
    simp only [size_blocks_openEntry] at hb
    simp only [List.mem_cons, List.not_mem_nil, or_false, ← BlockId.index_eq_iff]
    omega

end Functions

end ContractIR.EraVM
