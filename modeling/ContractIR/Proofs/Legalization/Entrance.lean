import ContractIR.Proofs.Legalization.Arrangement
import ContractIR.Proofs.Verification.Rules

/-!
# Entering a legalized module

The entry function sets up the globals of the ABI if they have the slots that it writes.  It takes
the address of each of them, since it could not write them otherwise; a verified module declares
what addresses are taken of; and in a legalized module the only globals are those of the ABI.  So
the entry function of a legalized module sets up every invocation, whatever names the contracts
have.

## Main definitions

* `ContractIR.EraVM.TakesInvocations` — a function sets up every invocation and passes it on.

## Main results

* `ContractIR.EraVM.Dispatches.takesAddress` — the entry function takes the address of each global.
* `ContractIR.EraVM.Inventory.slotsOf_eq` — the globals of a legalized module have their slots.
* `ContractIR.EraVM.takesInvocations_of_legalize` — the entry function of a legalized module takes
  every invocation.
-/

set_option autoImplicit false

namespace ContractIR

namespace EraVM

variable {m n : Module}

/-- **The entry function takes the address of each global.**

**Proof sketch.** What does not take the address of a global leaves it.  An invocation that starts
with a truth value in every slot ends with a word or a pointer in the slots of the globals. -/
theorem Dispatches.takesAddress {entry deploy runtime : BlockId}
    (h : Dispatches m entry deploy runtime) (g : Global) :
    ∃ o ∈ (m.block entry).ops, TakesAddress m o g.name := by
  by_contra hnone
  simp only [not_exists, not_and] at hnone
  let P : Pointers := ⟨Unit, fun _ => 0, fun p _ => p⟩
  let memory : Memory P := fun _ _ => .word ⟨1, 0⟩
  obtain ⟨s, hrun, hmemory⟩ := h P abiSlots () 0 (fun _ => 0) memory abiSlots_name
  have hready : (memory.setUp () 0 fun _ => 0).Ready () 0 fun _ => 0 := Memory.ready_setUp memory
  have hargs : ∀ x ∈ invocation (P := P) () 0 fun _ => 0, x.Avoids g.name := by
    intro x hx
    simp only [invocation, List.mem_cons, List.mem_ofFn] at hx
    rcases hx with rfl | rfl | ⟨i, rfl⟩
    · exact Scalar.avoids_pointer _
    · exact Scalar.avoids_word _
    · exact Scalar.avoids_word _
  have hkept : s.memory g.name 0 = .word ⟨1, 0⟩ :=
    runBlock_frame hrun (State.avoids_enter hargs fun _ _ => Scalar.avoids_word _) hnone 0
  rw [hmemory] at hkept
  have hextra := hready.extraAbiData ⟨0, by decide⟩
  cases g
  case memoryPointer => cases hkept.symm.trans hready.memoryPointer
  case calldataSize => cases hkept.symm.trans hready.calldataSize
  case returnDataSize => cases hkept.symm.trans hready.returnDataSize
  case callFlags => cases hkept.symm.trans hready.callFlags
  case extraAbiData => cases hkept.symm.trans hextra
  case calldataPtr => cases hkept.symm.trans hready.calldataPtr
  case returnDataPtr => cases hkept.symm.trans hready.returnDataPtr
  case activePtr => cases hkept.symm.trans hready.activePtr

/-- Globals have distinct names. -/
theorem Global.name_injective : Function.Injective Global.name := by
  intro g k h
  cases g <;> cases k <;> first | rfl | exact absurd h (by decide)

/-- The slots of a global that the body declares. -/
theorem slotsOf_of_isGlobal (hn : n.TopLevel) {o : OpId} {g : Global} (ho : o ∈ (n.block ⟨0⟩).ops)
    (hg : IsGlobal n o g) (i : Nat) : slotsOf n g.name i = slotTy? g.ty i := by
  have hfound : n.lookupTop? g.name = some o := hn.lookupTop?_eq_some_iff.2 ⟨ho, hg.symName?⟩
  have hty : (n.op o).attrs.get? AttrName.globalType = some (.type g.ty) := hg.globalType
  simp [slotsOf, hfound, hty, hg.1, Attr.type?]

/-! ## The entry function of a legalized module -/

section Inventory

variable {source : Source} {contracts : List Contract} {sites : List ContractSite}
  {globals : List Global} {code rest added : List OpId}

/-- The globals of a legalized module are those of the ABI. -/
theorem Inventory.exists_isGlobal (h : Inventory m n contracts sites globals code rest added)
    {o : OpId} (ho : o ∈ (n.block ⟨0⟩).ops) (hkind : n.kind o = .llvm .global) :
    o ∈ code ∧ ∃ g ∈ globals, IsGlobal n o g := by
  have hcode : o ∈ code := by
    rw [h.listed] at ho
    simp only [List.mem_append, List.mem_flatMap, List.mem_map] at ho
    rcases ho with ((ho | ho) | ⟨c, hc, s, hs, rfl⟩) | ho
    · exact ho
    · rcases h.declaration with rfl | ⟨o', rfl, hreturn⟩
      · cases ho
      · rw [List.mem_singleton.1 ho, hreturn.1] at hkind
        cases hkind
    · rw [(h.functions c hc s hs).1] at hkind
      cases hkind
    · rw [(h.generated o ho).kind_eq] at hkind
      cases hkind
  exact ⟨hcode, Outcome.exists_right h.globals hcode⟩

/-- What is new in the body and has the name of the entry function is the entry function. -/
theorem Inventory.exists_entryFunction
    (h : Inventory m n contracts sites globals code rest added) {f : OpId}
    (hf : f ∈ code ++ rest ++ added) (hname : n.symName? f = some entryName) :
    ∃ entry deploy runtime, EntryFunction n f entry deploy runtime := by
  rcases h.new_cases hf with ⟨g, -, hg, -⟩ | ⟨hreturn, -⟩ | ⟨-, hgenerated⟩
  · exact absurd (Option.some.inj (hg.symm.trans hname)) g.name_ne.1
  · exact absurd (Option.some.inj (hreturn.symm.trans hname)) (by decide)
  · rcases hgenerated.symName?_cases with ⟨-, hentry⟩ | ⟨hdeploy, -⟩ | ⟨hruntime, -⟩
    · exact hentry
    · exact absurd (Option.some.inj (hdeploy.symm.trans hname)) (by decide)
    · exact absurd (Option.some.inj (hruntime.symm.trans hname)) (by decide)

/-- **A module with an entry function declares every global of the ABI**, whatever names the
contracts have. -/
theorem Inventory.exists_global (h : Inventory m n contracts sites globals code rest added)
    {f : OpId} {entry deploy runtime : BlockId} (hf : f ∈ (n.block ⟨0⟩).ops)
    (hentry : EntryFunction n f entry deploy runtime) (g : Global) :
    g ∈ globals ∧ ∃ o ∈ (n.block ⟨0⟩).ops, IsGlobal n o g := by
  obtain ⟨o, ho, haddress⟩ := hentry.dispatches.takesAddress g
  have howner := (hentry.owner?_eq h.linked (x := entry) (by simp)).2
  have hattached : n.isAttached o = true := by
    refine h.linked.isAttached_iff.2 ⟨f, ⟨⟨0⟩, by simp [h.top.body], hf⟩, .single ?_⟩
    exact Module.up_iff_owner?.2 ⟨entry, (h.linked.op_parent o entry).2 ho, howner⟩
  obtain ⟨name, j, hname, hj, hkind⟩ := Module.exists_global_of_verifyOp
    (Module.of_verify h.verified (h.linked.mem_walk_iff.2 hattached)).1 haddress.1
  obtain rfl := Option.some.inj (hname.symm.trans haddress.2)
  rw [h.resolves o hattached, h.top.lookupTop?_eq_some_iff] at hj
  obtain ⟨-, k, hk, hglobal⟩ := h.exists_isGlobal hj.1 hkind
  obtain rfl : k = g :=
    Global.name_injective (Option.some.inj (hglobal.symName?.symm.trans hj.2))
  exact ⟨hk, j, hj.1, hglobal⟩

/-- **The globals of a module with an entry function have their slots.** -/
theorem Inventory.slotsOf_eq (h : Inventory m n contracts sites globals code rest added)
    {f : OpId} {entry deploy runtime : BlockId} (hf : f ∈ (n.block ⟨0⟩).ops)
    (hentry : EntryFunction n f entry deploy runtime) (g : Global) (i : Nat) :
    slotsOf n g.name i = slotTy? g.ty i := by
  obtain ⟨-, o, ho, hg⟩ := h.exists_global hf hentry g
  exact slotsOf_of_isGlobal h.top ho hg i

end Inventory

section Enter

variable {source : Source} {contracts : List Contract} {stats : Conversion.Stats}

/-- A function takes every invocation, from every memory: its first block sets up all globals and
branches.  With the lowest bit of the call flags set, control goes on to a block that calls the code
for deployment and nothing else, and without it to one that calls the runtime code and nothing else.
Where such a call comes back, nothing is reached. -/
def TakesInvocations (m : Module) (f : OpId) : Prop :=
  ∃ entry deploy runtime, m.entryBlock? f = some entry ∧
    (∀ (P : Pointers) (p : P.Ptr) (flags : BitVec wordBits)
      (extra : Fin extraWords → BitVec wordBits) (memory : Memory P), ∃ s,
      runBlock (slotsOf m) m (m.block entry).ops
        (.enter (m.block entry).args (invocation p flags extra) memory) =
        some (.branch (if flags.getLsbD 0 then deploy else runtime), s) ∧
      s.memory.Ready p flags extra) ∧
    CallsForever m deploy deployName ∧ CallsForever m runtime runtimeName

/-- **The entry function that legalization generates takes every invocation.** -/
theorem takesInvocations_of_legalize (h : lowerContracts source contracts = .ok m)
    (hlegal : legalize.run m = .ok stats n) {f : OpId} (hf : f ∈ n.topLevel)
    (hname : n.symName? f = some entryName) (hnew : m.ops.size ≤ f.index) :
    n.kind f = .llvm .func ∧ TakesInvocations n f := by
  obtain ⟨-, sites, hlayout⟩ := layout_of_lowerContracts h
  obtain ⟨globals, code, rest, added, hinventory⟩ := exists_inventory h hlayout hlegal
  rw [hinventory.top.topLevel_eq] at hf
  obtain ⟨entry, deploy, runtime, hentry⟩ :=
    hinventory.exists_entryFunction ((hinventory.mem_new_iff hlayout).2 ⟨hf, hnew⟩) hname
  refine ⟨hentry.kind, entry, deploy, runtime, ?_, fun P p flags extra memory => ?_,
    hentry.deploys, hentry.runs⟩
  · obtain ⟨r, hr, hblocks⟩ := hentry.region
    simp [Module.entryBlock?, hr, hblocks]
  · obtain ⟨s, hrun, hmemory⟩ := hentry.dispatches P (slotsOf n) p flags extra memory
      (hinventory.slotsOf_eq hf hentry)
    exact ⟨s, hrun, hmemory ▸ Memory.ready_setUp memory⟩

end Enter

/-- A contract with its runtime code has an entry function, and it takes every invocation. -/
theorem nameReusingContracts_takeInvocations :
    ∃ m stats n f, lowerContracts emptySource nameReusingContracts = .ok m ∧
      legalize.run m = .ok stats n ∧ f ∈ n.topLevel ∧ n.symName? f = some entryName ∧
      m.ops.size ≤ f.index ∧ n.kind f = .llvm .func ∧ TakesInvocations n f := by
  obtain ⟨m, stats, n, h, hlegal⟩ := exists_legalize_nameReusingContracts
  obtain ⟨-, sites, hlayout⟩ := layout_of_lowerContracts h
  obtain ⟨globals, code, rest, added, hinventory⟩ := exists_inventory h hlayout hlegal
  obtain ⟨f, hf, hname⟩ :=
    (hinventory.declares entryName).2 ⟨.inr ⟨by decide, .inl rfl⟩, by decide⟩
  obtain ⟨htop, hnew⟩ := (hinventory.mem_new_iff hlayout).1 hf
  rw [← hinventory.top.topLevel_eq] at htop
  exact ⟨m, stats, n, f, h, hlegal, htop, hname, hnew,
    takesInvocations_of_legalize h hlegal htop hname hnew⟩

end EraVM

end ContractIR
