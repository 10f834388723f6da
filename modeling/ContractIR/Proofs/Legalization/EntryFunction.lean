import ContractIR.Proofs.Legalization.EntryCode

/-!
# The entry function of a module

The entry function has three blocks.  The first one sets the globals up and branches, and each of
the others calls a function that does not come back.  This is established once, where the function
is built; later on it holds wherever its blocks and their operations are what they were.

## Main definitions

* `ContractIR.EraVM.CallsForever` — a block calls a function and does not go on.
* `ContractIR.EraVM.EntryFunction` — an operation is the entry function, with its three blocks.
* `ContractIR.EraVM.Filled` — some blocks got low-level code, and nothing else changed.

## Main results

* `ContractIR.EraVM.EntryFunction.congr` — the entry function depends on its operations only.
* `ContractIR.EraVM.Filled.next` — blocks are filled one after the other.
* `ContractIR.EraVM.entryBuilt_of_run` — what is built is the entry function.
-/

set_option autoImplicit false

namespace ContractIR.EraVM

open ContractIR.Module (Extends OpSpec)

/-! ## Blocks -/

/-- Low-level code, which declares no symbols. -/
def PlainBlock (m : Module) (x : BlockId) : Prop :=
  ∀ o ∈ (m.block x).ops, (m.kind o).dialect = .llvm ∧ (m.kind o).isSymbol = false

/-- A block calls a function with no arguments, in any state, and where the call comes back nothing
is reached. -/
def CallsForever (m : Module) (x : BlockId) (callee : String) : Prop :=
  ∃ rest ⊆ (m.block x).ops, ∀ (P : Pointers) (slots : Slots),
    (∀ s : State P, runBlock slots m (m.block x).ops s = some (.call callee [] rest, s)) ∧
    ∀ s : State P, runBlock slots m rest s = some (.unreachable, s)

/-- A block sets up the globals for any invocation, and goes on at the first of two blocks if the
lowest bit of the call flags is set and at the second one if it is not. -/
def Dispatches (m : Module) (entry deploy runtime : BlockId) : Prop :=
  ∀ (P : Pointers) (slots : Slots) (p : P.Ptr) (flags : BitVec wordBits)
    (extra : Fin extraWords → BitVec wordBits) (memory : Memory P),
    (∀ (g : Global) i, slots g.name i = slotTy? g.ty i) → ∃ s,
      runBlock slots m (m.block entry).ops
        (.enter (m.block entry).args (invocation p flags extra) memory) =
        some (.branch (if flags.getLsbD 0 then deploy else runtime), s) ∧
      s.memory = memory.setUp p flags extra

/-- A function of a module is the entry function: its first block sets up the globals, and goes on
at the second or the third one. -/
structure EntryFunction (m : Module) (f : OpId) (entry deploy runtime : BlockId) : Prop where
  kind : m.kind f = .llvm .func
  attrs : (m.op f).attrs = (functionSpec entryName entrySignature "external").attrs
  region : ∃ r, (m.op f).regions = [r] ∧ (m.region r).blocks = [entry, deploy, runtime]
  plain : ∀ x ∈ [entry, deploy, runtime], PlainBlock m x
  dispatches : Dispatches m entry deploy runtime
  deploys : CallsForever m deploy deployName
  runs : CallsForever m runtime runtimeName

section Congr

variable {m n : Module}

/-- A block goes on to hold low-level code while its operations are what they were. -/
theorem PlainBlock.congr {x : BlockId} (h : PlainBlock m x)
    (hblock : (n.block x).ops = (m.block x).ops) (hops : ∀ o ∈ (m.block x).ops, m.SameOp n o) :
    PlainBlock n x := by
  intro o ho
  rw [hblock] at ho
  rw [(hops o ho).kind_eq]
  exact h o ho

/-- A block goes on to call a function while its operations are what they were. -/
theorem CallsForever.congr {x : BlockId} {callee : String} (h : CallsForever m x callee)
    (hblock : (n.block x).ops = (m.block x).ops)
    (hops : ∀ o ∈ (m.block x).ops, m.SameOp n o ∧ ∀ v ∈ (m.op o).results, n.typeOf v = m.typeOf v) :
    CallsForever n x callee := by
  obtain ⟨rest, hrest, hruns⟩ := h
  have hsame : ∀ ids ⊆ (m.block x).ops, ∀ (P : Pointers) (slots : Slots) (s : State P),
      runBlock slots n ids s = runBlock slots m ids s := fun ids hids P slots s =>
    runBlock_congr (fun o ho => (hops o (hids ho)).1) (fun o ho => (hops o (hids ho)).2) s
  refine ⟨rest, hblock ▸ hrest, fun P slots => ⟨fun s => ?_, fun s => ?_⟩⟩
  · rw [hblock, hsame _ (fun _ => id)]
    exact (hruns P slots).1 s
  · rw [hsame _ hrest]
    exact (hruns P slots).2 s

/-- A block goes on to set up the globals while its operations are what they were. -/
theorem Dispatches.congr {entry deploy runtime : BlockId} (h : Dispatches m entry deploy runtime)
    (hblock : (n.block entry).ops = (m.block entry).ops)
    (hargs : (n.block entry).args = (m.block entry).args)
    (hops : ∀ o ∈ (m.block entry).ops, m.SameOp n o ∧
      ∀ v ∈ (m.op o).results, n.typeOf v = m.typeOf v) : Dispatches n entry deploy runtime := by
  intro P slots p flags extra memory hslots
  rw [hblock, hargs, runBlock_congr (fun o ho => (hops o ho).1) fun o ho => (hops o ho).2]
  exact h P slots p flags extra memory hslots

/-- **The entry function depends on its operations only.**

**Proof sketch.** Field by field: every one speaks of the operation itself, of its region, or of
the operations listed in its three blocks. -/
theorem EntryFunction.congr {f : OpId} {entry deploy runtime : BlockId}
    (h : EntryFunction m f entry deploy runtime) (hf : m.SameOp n f)
    (hregion : ∀ r ∈ (m.op f).regions, n.region r = m.region r)
    (hblocks : ∀ x ∈ [entry, deploy, runtime], (n.block x).ops = (m.block x).ops ∧
      (n.block x).args = (m.block x).args)
    (hops : ∀ x ∈ [entry, deploy, runtime], ∀ o ∈ (m.block x).ops, m.SameOp n o ∧
      ∀ v ∈ (m.op o).results, n.typeOf v = m.typeOf v) :
    EntryFunction n f entry deploy runtime := by
  obtain ⟨hentry, hargs⟩ := hblocks entry (by simp)
  constructor
  case kind => rw [hf.kind_eq, h.kind]
  case attrs =>
    obtain ⟨b, hb⟩ := hf
    rw [hb]
    exact h.attrs
  case region =>
    obtain ⟨r, hr, hlist⟩ := h.region
    refine ⟨r, by rw [hf.regions_eq, hr], ?_⟩
    rw [hregion r (by simp [hr]), hlist]
  case plain =>
    intro x hx
    exact (h.plain x hx).congr (hblocks x hx).1 fun o ho => (hops x hx o ho).1
  case dispatches => exact h.dispatches.congr hentry hargs (hops entry (by simp))
  case deploys => exact h.deploys.congr (hblocks deploy (by simp)).1 (hops deploy (by simp))
  case runs => exact h.runs.congr (hblocks runtime (by simp)).1 (hops runtime (by simp))

end Congr

/-! ## Building -/

section Build

variable {b c : Builder} {x : BlockId}

/-- Calling a function and going nowhere. -/
theorem inserts_callForever (callee : String) :
    Inserts x (do
      let _ ← Build.Llvm.call callee [] []
      let _ ← Build.Llvm.unreachable
      return () : Build Unit) b fun _ c code => ∃ call last, code = [call, last] ∧
        ((c.ir.op call).kind = .llvm .call ∧ (c.ir.op call).operands = [] ∧
          (c.ir.op call).successors = [] ∧ c.ir.callee? call = some callee) ∧
        (c.ir.op last).kind = .llvm .unreachable ∧ (c.ir.op last).operands = [] ∧
        (c.ir.op last).successors = [] := by
  refine (inserts_op _ (by simp)).bind fun call c code hcode hcall => ?_
  obtain ⟨rfl, hcall⟩ := hcall
  refine (inserts_op _ (by simp)).bind fun last d more hmore hlast => ?_
  obtain ⟨rfl, hlast⟩ := hlast
  refine .pure ⟨call, last, rfl, ?_, ?_⟩
  · rw [Module.callee?, Module.attr?, hcode.op_eq hmore (List.mem_singleton_self _), hcall.op]
    exact ⟨rfl, rfl, rfl, rfl⟩
  · rw [hlast.op]
    exact ⟨rfl, rfl, rfl⟩

/-- An empty block gets a call of a function that does not come back.

**Proof sketch.** `inserts_callForever` writes the call and what ends the block.  Running the
block stops at the call, with its name and no operands, and both operations are plain. -/
theorem wrote_callForever {callee : String} (hx : x.index < b.ir.blocks.size)
    (hops : (b.ir.block x).ops = []) (h : (callForever x callee).run b = .ok () c) :
    (∃ code, Builder.Wrote x { b with point := some ⟨x, none⟩ } c code) ∧
      CallsForever c.ir x callee ∧ PlainBlock c.ir x := by
  have hat : Builder.At { b with point := some ⟨x, none⟩ } x [] [] :=
    ⟨hx, hops, none, rfl, .inr ⟨rfl, rfl⟩⟩
  obtain ⟨code, hcode, hc, call, last, rfl, hcall, hlast⟩ :=
    inserts_callForever callee [] [] hat () c h
  have hlist : (c.ir.block x).ops = [call, last] := hc.ops
  refine ⟨⟨_, hcode⟩, ⟨[last], by simp [hlist], fun P slots => ⟨fun s => ?_, fun s => ?_⟩⟩, ?_⟩
  · have hcallee : ((c.ir.op call).attrs.get? AttrName.callee).bind Attr.symbol? = some callee :=
      hcall.2.2.2
    simp only [hlist, runBlock, exec, exit?, hcall.1, hcall.2.1, hcall.2.2.1, hcallee,
      Option.bind_eq_bind, Option.bind_some, List.mapM_nil]
    rfl
  · simp only [runBlock, exec, exit?, hlast]
    rfl
  · intro o ho
    rw [hlist] at ho
    rcases List.mem_pair.1 ho with rfl | rfl
    · rw [Module.kind, hcall.1]
      exact ⟨rfl, rfl⟩
    · rw [Module.kind, hlast.1]
      exact ⟨rfl, rfl⟩

/-- Blocks that code is not written to keep their operations. -/
theorem retains_of_wrote {p : Option InsertPoint} {code : List OpId}
    (hw : Builder.Wrote x { b with point := p } c code) :
    Module.Retains (· ≠ x) b.ir c.ir :=
  .of_extends hw.extends_ir fun _ hy hx => hy hx

/-- Some blocks of a module are filled with low-level code, and nothing else changes. -/
structure Filled (m n : Module) (xs : List BlockId) : Prop where
  lt : ∀ x ∈ xs, x.index < m.blocks.size
  linked : n.Linked
  grown : Extends (· ∈ xs) m n
  size_blocks : n.blocks.size = m.blocks.size
  new : ∀ o : OpId, m.ops.size ≤ o.index → o.index < n.ops.size → ∃ x ∈ xs, o ∈ (n.block x).ops
  plain : ∀ x ∈ xs, PlainBlock n x

namespace Filled

variable {m : Module} {xs : List BlockId} {p : Option InsertPoint}

/-- No block is filled. -/
theorem refl (hm : m.Linked) : Filled m m [] where
  lt _ hx := nomatch hx
  linked := hm
  grown := .refl _ m
  size_blocks := rfl
  new _ hle hlt := absurd hlt (Nat.not_lt.2 hle)
  plain _ hx := nomatch hx

/-- A block that was not filled has the operations it had. -/
theorem block_eq (h : Filled m b.ir xs) {y : BlockId} (hlt : y.index < m.blocks.size)
    (hy : y ∉ xs) : b.ir.block y = m.block y :=
  h.grown.blocks y hlt hy

/-- Filling one more block.

**Proof sketch.** Writing to a block leaves the lists of the others (`retains_of_wrote`), so
blocks that were filled stay as they are; what is new was written before or is listed in the new
block. -/
theorem next (h : Filled m b.ir xs) (hlt : x.index < m.blocks.size) (hx : x ∉ xs)
    {code : List OpId} (hw : Builder.Wrote x { b with point := p } c code)
    (hplain : PlainBlock c.ir x) :
    Filled m c.ir (xs ++ [x]) := by
  have hret := retains_of_wrote hw
  have hlisted : ∀ y ∈ xs, (c.ir.block y).ops = (b.ir.block y).ops := fun y hy =>
    hret.listed y (h.size_blocks ▸ h.lt y hy) fun hyx => hx (hyx ▸ hy)
  refine ⟨?_, hw.linked h.linked, ?_, hw.size_blocks.trans h.size_blocks, fun o hle hnew => ?_, ?_⟩
  · exact List.forall_mem_append.2 ⟨h.lt, List.forall_mem_singleton.2 hlt⟩
  · refine (h.grown.weaken fun y hy => List.mem_append_left _ hy).trans
      (hw.extends_ir.weaken fun y hy => ?_)
    exact List.mem_append_right _ (List.mem_singleton.2 hy)
  · rcases Nat.lt_or_ge o.index b.ir.ops.size with hold | hge
    · obtain ⟨y, hy, ho⟩ := h.new o hle hold
      exact ⟨y, List.mem_append_left _ hy, hlisted y hy ▸ ho⟩
    · exact ⟨x, List.mem_append_right _ (List.mem_singleton_self x),
        hw.members ((hw.new o).2 ⟨hge, hnew⟩)⟩
  · refine List.forall_mem_append.2 ⟨fun y hy => ?_, List.forall_mem_singleton.2 hplain⟩
    exact (h.plain y hy).congr (hlisted y hy) fun o ho => (hret.same_ops h.linked o ho).1

/-- A filled block goes on to call a function while other blocks are filled. -/
theorem callsForever (h : Filled m b.ir xs) {y : BlockId} (hy : y ∈ xs) (hne : y ≠ x)
    {callee : String} (hcalls : CallsForever b.ir y callee) {code : List OpId}
    (hw : Builder.Wrote x { b with point := p } c code) : CallsForever c.ir y callee :=
  have hret := retains_of_wrote hw
  hcalls.congr (hret.listed y (h.size_blocks ▸ h.lt y hy) hne) (hret.same_ops h.linked)

/-- A filled block goes on to set up the globals while other blocks are filled. -/
theorem dispatches (h : Filled m b.ir xs) {y deploy runtime : BlockId} (hy : y ∈ xs) (hne : y ≠ x)
    (hdispatches : Dispatches b.ir y deploy runtime) {code : List OpId}
    (hw : Builder.Wrote x { b with point := p } c code) : Dispatches c.ir y deploy runtime :=
  have hret := retains_of_wrote hw
  have hlt := h.size_blocks ▸ h.lt y hy
  hdispatches.congr (hret.listed y hlt hne) (hret.args y hlt) (hret.same_ops h.linked)

end Filled

/-- The values of a function that was just called. -/
theorem holds_enter {P : Pointers} {params : List ValueId} (hnodup : params.Nodup)
    (hlt : ∀ v ∈ params, v.index < b.ir.values.size) {args : List (Scalar P)}
    (hlength : params.length = args.length) (memory : Memory P) :
    List.Forall₂ (Holds b (.enter params args memory)) params args := by
  refine List.forall₂_iff_get.2 ⟨hlength, fun i hi hi' => ⟨hlt _ (List.getElem_mem hi), ?_⟩⟩
  rw [List.get_eq_getElem, List.get_eq_getElem, State.values_enter hnodup]
  exact List.getElem?_eq_getElem hi'

/-- The slots that the globals of the ABI have. -/
def abiSlots : Slots := fun name index =>
  (Global.all.find? fun g => decide (g.name = name)).bind fun g => slotTy? g.ty index

/-- The slots under the name of a global are those of its type. -/
theorem abiSlots_name (g : Global) (index : Nat) : abiSlots g.name index = slotTy? g.ty index := by
  cases g <;> rfl

section EntryCode

variable {P : Pointers} {slots : Slots} {deploy runtime : BlockId} {o : OpId}

/-- The first block of the entry function is filled, and does what it should for an invocation.

**Proof sketch.** `leaves_entryCode` gives the operations of the block and the state in front of
the branch.  Running them ends at the branch, which reads the lowest bit of the flags. -/
theorem run_entryCode (hb : b.At x [] []) (hnodup : (b.ir.block x).args.Nodup)
    (hargs : ∀ v ∈ (b.ir.block x).args, v.index < b.ir.values.size)
    (hlength : (b.ir.block x).args.length = entrySignature.inputs.length)
    (h : (entryCode x deploy runtime).run b = .ok o c)
    (hslots : ∀ (g : Global) i, slots g.name i = slotTy? g.ty i) (p : P.Ptr)
    (flags : BitVec wordBits) (extra : Fin extraWords → BitVec wordBits) (memory : Memory P) :
    (∃ code, b.Wrote x c code) ∧ PlainBlock c.ir x ∧ ∃ s,
      runBlock slots c.ir (c.ir.block x).ops
        (.enter (b.ir.block x).args (invocation p flags extra) memory) =
        some (.branch (if flags.getLsbD 0 then deploy else runtime), s) ∧
      s.memory = memory.setUp p flags extra := by
  have hcount : (b.ir.block x).args.length = (invocation p flags extra).length := by
    rw [hlength]
    simp [invocation, entrySignature, Nat.add_comm]
  obtain ⟨code, hcode, hc, init, last, s, rfl, hrun, hmemory, v, hv, hkind, hoperands,
      hsuccessors⟩ :=
    leaves_entryCode hslots (holds_enter hnodup hargs hcount memory) deploy runtime [] [] hb o c h
  have hlist : (c.ir.block x).ops = init ++ [last] := by
    rw [hc.ops]
    simp
  refine ⟨⟨_, hcode⟩, fun q hq => ?_, s, ?_, hmemory⟩
  · rw [hlist] at hq
    rcases List.mem_append.1 hq with hq | hq
    · exact plain_of_execAll hrun q hq
    · rw [Module.kind, List.mem_singleton.1 hq, hkind]
      exact ⟨rfl, rfl⟩
  · rw [hlist, runBlock_append hrun]
    cases hbit : flags.getLsbD 0 <;>
      simp [runBlock, exec, exit?, hkind, hoperands, hsuccessors, hv, hbit, Scalar.word?, Word.ty,
        Ty.i1]

end EntryCode

/-- The three blocks of the entry function are filled, and nothing else changes. -/
structure EntryFilled (m n : Module) (entry deploy runtime : BlockId) : Prop where
  linked : n.Linked
  grown : Extends (· ∈ [entry, deploy, runtime]) m n
  size_blocks : n.blocks.size = m.blocks.size
  new : ∀ o : OpId, m.ops.size ≤ o.index → o.index < n.ops.size →
    ∃ x ∈ [entry, deploy, runtime], o ∈ (n.block x).ops
  plain : ∀ x ∈ [entry, deploy, runtime], PlainBlock n x
  dispatches : Dispatches n entry deploy runtime
  deploys : CallsForever n deploy deployName
  runs : CallsForever n runtime runtimeName

/-- The first block of the entry function is filled, and sets up the globals in whatever state it is
to run. -/
theorem dispatches_of_entryCode {o : OpId} {entry deploy runtime : BlockId} (hb : b.ir.Linked)
    (hlt : entry.index < b.ir.blocks.size) (hops : (b.ir.block entry).ops = [])
    (hnodup : (b.ir.block entry).args.Nodup)
    (hlength : (b.ir.block entry).args.length = entrySignature.inputs.length)
    (h : (entryCode entry deploy runtime).run { b with point := some ⟨entry, none⟩ } = .ok o c) :
    (∃ code, Builder.Wrote entry { b with point := some ⟨entry, none⟩ } c code) ∧
      PlainBlock c.ir entry ∧ Dispatches c.ir entry deploy runtime := by
  have hat : Builder.At { b with point := some ⟨entry, none⟩ } entry [] [] :=
    ⟨hlt, hops, none, rfl, .inr ⟨rfl, rfl⟩⟩
  obtain ⟨⟨code, hw⟩, hplain, -⟩ := run_entryCode hat hnodup (hb.args_lt entry) hlength h
    abiSlots_name (P := ⟨Unit, fun _ => 0, fun p _ => p⟩) () 0 (fun _ => 0) fun _ _ => .pointer ()
  refine ⟨⟨code, hw⟩, hplain, fun P slots p flags extra memory hslots => ?_⟩
  rw [(hw.extends_ir.grown entry hlt).1]
  exact (run_entryCode hat hnodup (hb.args_lt entry) hlength h hslots p flags extra memory).2.2

/-- **Filling the blocks of the entry function.**

**Proof sketch.** The first block gets the code that sets up the globals
(`dispatches_of_entryCode`), the others get a call each (`wrote_callForever`).  One more block is
filled at a time (`Filled.next`), and what was said of the blocks before stays true. -/
theorem entryFilled_of_run {entry deploy runtime : BlockId} (hb : b.ir.Linked)
    (hblocks : ∀ x ∈ [entry, deploy, runtime], x.index < b.ir.blocks.size ∧
      (b.ir.block x).ops = [])
    (hdistinct : [entry, deploy, runtime].Nodup) (hnodup : (b.ir.block entry).args.Nodup)
    (hlength : (b.ir.block entry).args.length = entrySignature.inputs.length)
    (h : (buildEntryBody entry deploy runtime).run b = .ok () c) :
    EntryFilled b.ir c.ir entry deploy runtime := by
  simp only [List.nodup_cons, List.mem_cons, List.not_mem_nil, or_false, not_or] at hdistinct
  obtain ⟨⟨hne₁₂, hne₁₃⟩, hne₂₃, -⟩ := hdistinct
  obtain ⟨hlt₁, hops₁⟩ := hblocks entry (by simp)
  obtain ⟨hlt₂, hops₂⟩ := hblocks deploy (by simp)
  obtain ⟨hlt₃, hops₃⟩ := hblocks runtime (by simp)
  rw [buildEntryBody_eq] at h
  obtain ⟨_, b₁, hstart, h⟩ := Outcome.run_bind_eq_ok.1 h
  obtain ⟨_, c₁, hcode, h⟩ := Outcome.run_bind_eq_ok.1 h
  obtain ⟨_, c₂, hdeploy, hruntime⟩ := Outcome.run_bind_eq_ok.1 h
  obtain rfl : { b with point := some ⟨entry, none⟩ } = b₁ := by
    cases hstart
    rfl
  -- the first block
  obtain ⟨⟨_, hw₁⟩, hplain₁, hdispatches⟩ :=
    dispatches_of_entryCode hb hlt₁ hops₁ hnodup hlength hcode
  have hfilled₁ : Filled b.ir c₁.ir [entry] :=
    (Filled.refl hb).next hlt₁ List.not_mem_nil hw₁ hplain₁
  -- the second one
  have hold₂ : deploy ∉ [entry] := fun hmem => hne₁₂ (List.mem_singleton.1 hmem).symm
  obtain ⟨⟨_, hw₂⟩, hdeploys, hplain₂⟩ := wrote_callForever (hfilled₁.size_blocks ▸ hlt₂)
    (by rw [hfilled₁.block_eq hlt₂ hold₂, hops₂]) hdeploy
  have hfilled₂ : Filled b.ir c₂.ir [entry, deploy] := hfilled₁.next hlt₂ hold₂ hw₂ hplain₂
  -- the third one
  have hold₃ : runtime ∉ [entry, deploy] := fun hmem =>
    (List.mem_pair.1 hmem).elim (Ne.symm hne₁₃) (Ne.symm hne₂₃)
  obtain ⟨⟨_, hw₃⟩, hruns, hplain₃⟩ := wrote_callForever (hfilled₂.size_blocks ▸ hlt₃)
    (by rw [hfilled₂.block_eq hlt₃ hold₃, hops₃]) hruntime
  have hfilled₃ : Filled b.ir c.ir [entry, deploy, runtime] :=
    hfilled₂.next hlt₃ hold₃ hw₃ hplain₃
  exact
    { hfilled₃ with
      dispatches := hfilled₂.dispatches (by simp) hne₁₃
        (hfilled₁.dispatches (by simp) hne₁₂ hdispatches hw₂) hw₃
      deploys := hfilled₂.callsForever (by simp) hne₂₃ hdeploys hw₃
      runs := hruns }

end Build

section Built

variable {m n : Module}

/-- A module grew by the entry function, at the end of its body. -/
structure EntryBuilt (m n : Module) (f : OpId) : Prop where
  id : f = ⟨m.ops.size⟩
  linked : n.Linked
  grown : Extends (· = m.bodyBlock) m n
  listed : (n.block m.bodyBlock).ops = (m.block m.bodyBlock).ops ++ [f]
  size_blocks : n.blocks.size = m.blocks.size + 3
  new : ∀ o : OpId, m.ops.size ≤ o.index → o.index < n.ops.size → (n.kind o).dialect = .llvm
  entry : EntryFunction n f ⟨m.blocks.size⟩ ⟨m.blocks.size + 1⟩ ⟨m.blocks.size + 2⟩

/-- The links of a module in which the entry function was opened. -/
theorem linked_openEntry (hm : m.Linked) (location : Location) {around : BlockId}
    (haround : around.index < m.blocks.size) : (openEntry m location around).Linked := by
  have hadded := hm.addOp (functionSpec entryName entrySignature "external") location
    (by simp [functionSpec]) haround none
  have hregions : (m.addOp (functionSpec entryName entrySignature "external") location around
      none).regions.size = m.regions.size + 1 := by
    rw [Module.size_regions_addOp]
    rfl
  exact ((hadded.appendBlock (by simp [hregions]) _).appendBlock (by simp [hregions]) _).appendBlock
    (by simp [hregions]) _

/-- A module grows when the entry function is opened. -/
theorem extends_openEntry (m : Module) (location : Location) (around : BlockId) :
    Extends (· = around) m (openEntry m location around) :=
  (((Extends.refl (· = around) m).addScope _ location (.inl rfl) _).appendBlock
    (Nat.le_refl _) _).appendBlock (Nat.le_refl _) _

/-- **What is built is the entry function.**

**Proof sketch.** The function is opened with three empty blocks, which are then filled
(`entryFilled_of_run`).  Its operation and its region stay as the opening left them; what is new
is that operation or listed in one of the blocks. -/
theorem entryBuilt_of_run (hm : m.Linked) (hbody : m.bodyBlock.index < m.blocks.size)
    {location : Location} {f : OpId} (h : (buildEntry location).run m = .ok f n) :
    EntryBuilt m n f := by
  rw [run_buildEntry] at h
  split at h
  case h_2 => cases h
  case h_1 c hfill =>
    cases h
    have hopen := linked_openEntry hm location hbody
    have hfilled := entryFilled_of_run hopen
      (fun x hx => ((block_openEntry_new m location m.bodyBlock hx).imp_right And.left)) (by simp)
      (by
        rw [args_openEntry]
        exact List.nodup_range.map fun i j hij => by simpa using hij)
      (by simp [args_openEntry]) hfill
    have hold : m.bodyBlock ∉
        [(⟨m.blocks.size⟩ : BlockId), ⟨m.blocks.size + 1⟩, ⟨m.blocks.size + 2⟩] := by
      simp only [List.mem_cons, List.not_mem_nil, or_false, ← BlockId.index_eq_iff]
      omega
    have hop : c.ir.op ⟨m.ops.size⟩ = (functionSpec entryName entrySignature "external").toOp
        location m.values.size m.regions.size (some m.bodyBlock) := by
      rw [hfilled.grown.ops _ (by simp), op_openEntry, if_pos rfl]
    have hregion : c.ir.region ⟨m.regions.size⟩ = _ :=
      (hfilled.grown.regions _ (by simp)).trans (region_openEntry m location m.bodyBlock)
    refine ⟨rfl, hfilled.linked, ?_, ?_, ?_, fun o hle hlt => ?_, ?_⟩
    · refine (extends_openEntry m location m.bodyBlock).trans_new hfilled.grown fun x hx => .inr ?_
      simp only [List.mem_cons, List.not_mem_nil, or_false, ← BlockId.index_eq_iff] at hx
      omega
    · rw [hfilled.grown.blocks _ (by simp; omega) hold, ops_openEntry m location _ hbody]
    · rw [hfilled.size_blocks, size_blocks_openEntry]
    · by_cases ho : o = ⟨m.ops.size⟩
      · rw [ho, Module.kind, hop]
        rfl
      · have hge : m.ops.size + 1 ≤ o.index := by
          have hne : o.index ≠ m.ops.size := fun h => ho (OpId.index_eq_iff.1 h)
          omega
        obtain ⟨x, hx, hmem⟩ := hfilled.new o (by rwa [size_ops_openEntry]) hlt
        exact (hfilled.plain x hx o hmem).1
    · refine ⟨?_, ?_, ⟨⟨m.regions.size⟩, ?_, ?_⟩, hfilled.plain, hfilled.dispatches,
        hfilled.deploys, hfilled.runs⟩
      · rw [Module.kind, hop]
        rfl
      · rw [hop]
        rfl
      · rw [hop]
        rfl
      · rw [hregion]

end Built

end ContractIR.EraVM
