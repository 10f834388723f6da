import ContractIR.Proofs.Legalization.Resolution
import ContractIR.Proofs.Verification.Rules

/-!
# What references to globals mean after legalization

A reference to a global names the nearest global around it.  Legalization takes the globals of
containers for code, and moves them into functions, where no name is looked up; the result is
accepted only if every reference names a global of the body.  So a reference means what it meant if
that was a global of the body, and otherwise it means another global of the same name, such as one
of the ABI.

## Main results

* `ContractIR.EraVM.Course.standsIn_body_iff` — nothing but functions gets into the body.
* `ContractIR.EraVM.Course.lookup?_global_iff` — which globals are visible afterwards.
* `ContractIR.EraVM.legalize_preserves_address_iff` — which references mean what they meant.
* `ContractIR.EraVM.capturedGlobal_redirected` — a reference that does not.
-/

set_option autoImplicit false

namespace ContractIR.EraVM

variable {m s t n : Module} {become : OpId → List OpId} {o g : OpId}

/-- A low-level operation is in the arena. -/
theorem lt_of_low (hlow : (m.kind o).dialect = .llvm) : o.index < m.ops.size :=
  Module.index_lt_of_op_ne fun hd => by
    rw [Module.kind, hd] at hlow
    cases hlow

namespace Course

/-- **Nothing but functions gets into the body**, and nothing but containers and returns is taken
out of it.

**Proof sketch.** Hoisting moves functions and drops containers, and conversion replaces returns,
so anything else stands where it stood after splitting.  Splitting takes what stands in the body
to no other place. -/
theorem standsIn_body_iff (h : Course m s t n become) (ho : o.index < m.ops.size)
    (hfunction : (m.kind o).isFunction = false) (hcontainer : (m.kind o).isContainer = false)
    (hret : m.kind o ≠ .sol .ret) : n.StandsIn o Module.body ↔ m.StandsIn o Module.body := by
  have hkind : s.kind o = m.kind o := h.assigns.kind_eq ho
  have hparent : (n.op o).parent = (s.op o).parent := by
    rw [(h.lowForm ho hret).parent]
    rcases h.finishes.lifts.parents o with hsame | ⟨hmoves, -⟩ | ⟨hdrops, -⟩
    · exact hsame
    · rw [hkind, hfunction] at hmoves
      cases hmoves
    · rw [hkind, hcontainer] at hdrops
      cases hdrops
  have hsplit : n.StandsIn o Module.body ↔ s.StandsIn o Module.body := by
    refine exists_congr fun b => ?_
    rw [h.finishes.region_body, ← h.finishes.linked.op_parent, ← h.finishes.start.op_parent,
      hparent]
  exact hsplit.trans ⟨h.assigns.standsIn_of_standsIn h.start ho,
    h.assigns.shifts.standsIn_body h.start⟩

/-- Low-level operations stay what they are, wherever they stand. -/
theorem sameOp_of_low (h : Course m s t n become) (hlow : (m.kind o).dialect = .llvm) :
    m.SameOp n o := by
  have hlt := lt_of_low hlow
  have hsame := h.sameOp hlt
  refine hsame.trans (.of_eq (h.finishes.reworks.low o (h.lt_hoisted hlt) ?_).1)
  rw [hsame.kind_eq, hlow]

/-- **A global of the body is the only one of its name** that is visible afterwards. -/
theorem lookup?_global_iff (h : Course m s t n become) (ho : n.isAttached o = true) {name : String}
    (hg : m.kind g = .llvm .global) (hname : m.symName? g = some name) :
    n.lookup? o name = some g ↔ m.StandsIn g Module.body := by
  have hlow : (m.kind g).dialect = .llvm := by
    rw [hg]
    rfl
  have hsame := h.sameOp_of_low hlow
  have hkind : n.kind g = .llvm .global := hsame.kind_eq.trans hg
  rw [Module.lookup?_eq_lookupTop? fun a ha => h.finishes.isSymbolTable_eq ho ha,
    ← h.standsIn_body_iff (lt_of_low hlow) (by rw [hg]; rfl) (by rw [hg]; rfl) (by rw [hg]; decide)]
  refine ⟨fun hfound => (Module.standsIn_of_lookupTop? hfound).1, fun hstands => ?_⟩
  exact Module.lookupTop?_of_verify h.accepted hstands (by rw [hkind]; rfl)
    (hsame.symName?_eq.trans hname)

end Course

/-- **References to globals of the body mean what they meant, and no others do.**  A reference of a
verified module that stays in the tree names a global before and after legalization.  Afterwards it
is one of the body; it is the same one if and only if that stood in the body before.

**Proof sketch.** The module and the result are accepted, so the reference names globals in both.
No scope is left in the result, so the second one stands in the body.  A global stands in the body
afterwards if and only if it stood there (`Course.standsIn_body_iff`), and if it does, its name
means nothing else, as the result is verified. -/
theorem legalize_preserves_address_iff (hm : m.Linked) (hverify : m.verify = .ok ())
    {stats : Conversion.Stats} (h : legalize.run m = .ok stats n)
    (hkind : m.kind o = .llvm .addressOf) (ho : m.isAttached o = true)
    (ho' : n.isAttached o = true) :
    ∃ name g g', (m.attr? o AttrName.globalName).bind Attr.symbol? = some name ∧
      (n.attr? o AttrName.globalName).bind Attr.symbol? = some name ∧
      m.lookup? o name = some g ∧ m.kind g = .llvm .global ∧
      n.lookup? o name = some g' ∧ n.kind g' = .llvm .global ∧
      n.StandsIn g' Module.body ∧ (g' = g ↔ m.StandsIn g Module.body) := by
  obtain ⟨s, t, become, hcourse⟩ := exists_course hm hverify h
  obtain ⟨name, g, hname, hg, hglobal⟩ := Module.exists_global_of_verifyOp
    (Module.of_verify hverify (hm.mem_walk_iff.2 ho)).1 hkind
  obtain ⟨-, hsymbol, -⟩ := hm.lookup?_cases hg
  have hsame : m.SameOp n o := hcourse.sameOp_of_low (by rw [hkind]; rfl)
  obtain ⟨name', g', hname', hg', hglobal'⟩ := Module.exists_global_of_verifyOp
    (Module.of_verify hcourse.accepted (hcourse.finishes.linked.mem_walk_iff.2 ho')).1
    (hsame.kind_eq.trans hkind)
  obtain rfl : name = name' := by
    rw [hsame.attr?_eq] at hname'
    exact Option.some.inj (hname.symm.trans hname')
  have hbody : n.StandsIn g' Module.body := by
    rw [Module.lookup?_eq_lookupTop? fun a ha => hcourse.finishes.isSymbolTable_eq ho' ha] at hg'
    exact (Module.standsIn_of_lookupTop? hg').1
  refine ⟨name, g, g', hname, hname', hg, hglobal, hg', hglobal', hbody, ?_⟩
  rw [← hcourse.lookup?_global_iff ho' hglobal hsymbol, hg', Option.some_inj]

/-- A global of the body, and a contract whose code takes its address. -/
def sharedGlobal : Builder :=
  [Command.build (.llvmGlobal "g" .word "private" none),
    .build (.container .contract "X_deployed"), .build (.toEnd ⟨1⟩),
    .build (.llvmAddressOf "g" AddressSpace.stack.ptr), .build (.constant 0 .word),
    .build (.solReturn ⟨1⟩ ⟨1⟩)].foldl (fun b c => c.run b) (.new (.new .unknown))

/-- The code goes to a function, and still refers to the global.

**Proof sketch.** That legalization ends is computed, and `legalize_preserves_address_iff` is
applied to the address.  The names and the place of the global are computed as well. -/
theorem sharedGlobal_resolved :
    ∃ stats n, legalize.run sharedGlobal.ir = .ok stats n ∧
      sharedGlobal.ir.lookup? ⟨2⟩ "g" = some ⟨0⟩ ∧ n.lookup? ⟨2⟩ "g" = some ⟨0⟩ := by
  have hm : sharedGlobal.ir.Linked :=
    ((Builder.Reachable.new .unknown).foldl (by decide +kernel)).sound.linked
  have hends : Outcome.endsIn legalize sharedGlobal.ir (fun n => n.isAttached ⟨2⟩) = true := by
    decide +kernel
  obtain ⟨stats, n, h, ho⟩ := Outcome.exists_of_endsIn hends
  obtain ⟨name, g, g', hname, -, hg, -, hg', -, -, hiff⟩ :=
    legalize_preserves_address_iff (o := ⟨2⟩) hm
      (by decide +kernel) h (by decide +kernel) (by decide +kernel) ho
  have hattr : (sharedGlobal.ir.attr? ⟨2⟩ AttrName.globalName).bind Attr.symbol? = some "g" := by
    decide +kernel
  obtain rfl := Option.some.inj (hname.symm.trans hattr)
  have hfound : sharedGlobal.ir.lookup? ⟨2⟩ "g" = some ⟨0⟩ := by decide +kernel
  obtain rfl := Option.some.inj (hg.symm.trans hfound)
  have hstands : sharedGlobal.ir.StandsIn ⟨0⟩ Module.body :=
    ⟨⟨0⟩, by decide +kernel, by decide +kernel⟩
  exact ⟨stats, n, h, hg, hiff.2 hstands ▸ hg'⟩

/-- A contract with a global of its own, and code that takes its address.  The name of the global is
that of one of the ABI. -/
def capturedGlobal : Builder :=
  [Command.build (.container .contract "X_deployed"), .build (.toEnd ⟨1⟩),
    .build (.llvmGlobal "memory_pointer" .word "private" none),
    .build (.llvmAddressOf "memory_pointer" AddressSpace.stack.ptr), .build (.constant 0 .word),
    .build (.solReturn ⟨1⟩ ⟨1⟩)].foldl (fun b c => c.run b) (.new (.new .unknown))

/-- The contract is accepted and legalized, but its code refers to the global of the ABI then. -/
theorem capturedGlobal_redirected :
    capturedGlobal.ir.Linked ∧ capturedGlobal.ir.verify = .ok () ∧
      capturedGlobal.ir.kind ⟨2⟩ = .llvm .addressOf ∧ capturedGlobal.ir.isAttached ⟨2⟩ = true ∧
      capturedGlobal.ir.lookup? ⟨2⟩ "memory_pointer" = some ⟨1⟩ ∧
      ∃ stats n, legalize.run capturedGlobal.ir = .ok stats n ∧ n.isAttached ⟨2⟩ = true ∧
        n.lookup? ⟨2⟩ "memory_pointer" ≠ some ⟨1⟩ := by
  refine ⟨((Builder.Reachable.new .unknown).foldl (by decide +kernel)).sound.linked,
    by decide +kernel, by decide +kernel, by decide +kernel, by decide +kernel, ?_⟩
  have hends : Outcome.endsIn legalize capturedGlobal.ir (fun n => n.isAttached ⟨2⟩ &&
      decide (n.lookup? ⟨2⟩ "memory_pointer" ≠ some ⟨1⟩)) = true := by
    decide +kernel
  obtain ⟨stats, n, h, hn⟩ := Outcome.exists_of_endsIn hends
  rw [Bool.and_eq_true] at hn
  exact ⟨stats, n, h, hn.1, of_decide_eq_true hn.2⟩

end ContractIR.EraVM
