import ContractIR.Proofs.Legalization.Finishing
import ContractIR.Proofs.Lowering.Calls

/-!
# What calls mean after legalization

Before legalization, a name is looked up in the containers around a call, from the inside to the
outside, and then in the body.  Afterwards there are no containers, and the body holds the functions
of all of them next to symbols that are generated.  A call still means the function that it meant:
that function ends in the body under its name, and no other symbol of the body has the name, since
the result is verified.

## Main results

* `ContractIR.EraVM.Course.lookup?_eq` — a function that is visible from an operation stays visible.
* `ContractIR.EraVM.legalize_preserves_resolution` — calls mean the functions that they meant.
-/

set_option autoImplicit false

namespace ContractIR.EraVM

variable {m s t n : Module} {become : OpId → List OpId} {o f : OpId}

namespace Course

/-- A function that is visible from an operation of the tree ends in the body. -/
theorem standsIn_of_lookup? (h : Course m s t n become) (ho : m.isAttached o = true)
    {name : String} (hf : m.lookup? o name = some f) (hfunction : (m.kind f).isFunction = true) :
    n.StandsIn f Module.body := by
  obtain ⟨-, -, hplace⟩ := h.start.lookup?_cases hf
  refine h.standsIn_body hfunction (hplace.imp_right ?_)
  rintro ⟨c, hup, hscope, hinside⟩
  exact ⟨c, hup, h.start.isAttached_of_inside ho hinside, hscope⟩

/-- **A function that is visible from an operation stays visible** under its name, if the operation
stays in the tree.

**Proof sketch.** The function ends in the body (`standsIn_of_lookup?`) with its name, converted
to a low-level one.  No symbol table is left around the operation, so the name is looked up in the
body, where an accepted module has it once. -/
theorem lookup?_eq (h : Course m s t n become) (ho : m.isAttached o = true)
    (ho' : n.isAttached o = true) {name : String} (hf : m.lookup? o name = some f)
    (hfunction : (m.kind f).isFunction = true) :
    n.lookup? o name = some f ∧ n.kind f = .llvm .func := by
  have hstands := h.standsIn_of_lookup? ho hf hfunction
  obtain ⟨-, hname, -⟩ := h.start.lookup?_cases hf
  have hlt : f.index < m.ops.size := Module.index_lt_of_op_ne fun hd => by
    rw [Module.kind, hd] at hfunction
    cases hfunction
  have hplain : m.kind f ≠ .sol .ret := fun hret => by
    rw [hret] at hfunction
    cases hfunction
  have hkind : n.kind f = .llvm .func := by
    refine (h.lowForm hlt hplain).kind_of_isFunction ?_
      (h.finishes.dialect_eq (h.finishes.linked.isAttached_iff.2 ⟨f, hstands, .refl⟩))
    rw [← (h.sameOp hlt).kind_eq] at hfunction
    exact hfunction
  refine ⟨?_, hkind⟩
  rw [Module.lookup?_eq_lookupTop? fun a ha => h.finishes.isSymbolTable_eq ho' ha]
  refine Module.lookupTop?_of_verify h.accepted hstands (by rw [hkind]; rfl) ?_
  rw [Module.symName?, h.attr?_eq hlt hplain (by decide) (by decide)]
  exact hname

end Course

/-- **Hoisting preserves what calls mean.**  A call of a verified module that stays in the tree
names the same function before and after legalization, though no scope is left around it.

**Proof sketch.** The call was accepted, so it names a function that stands in the body or directly
in a container around the call (`Module.Linked.lookup?_cases`).  Legalization leaves no container in
the tree, so every container around the call is inside one of the body, and its functions are
hoisted (`Finishes.standsIn_body`).  Looking the name up in the body of the result finds the
function, as the names of a verified body are distinct (`Module.lookupTop?_of_verify`). -/
theorem legalize_preserves_resolution (hm : m.Linked) (hverify : m.verify = .ok ())
    {stats : Conversion.Stats} (h : legalize.run m = .ok stats n)
    (hcall : (m.kind o).isCall = true) (ho : m.isAttached o = true) (ho' : n.isAttached o = true) :
    ∃ name f, m.callee? o = some name ∧ n.callee? o = some name ∧
      m.lookup? o name = some f ∧ n.lookup? o name = some f ∧
      (m.kind f).isFunction = true ∧ (n.kind f).isFunction = true ∧
      ∀ a ∈ n.ancestors o, (n.kind a).isSymbolTable = false := by
  obtain ⟨s, t, become, hcourse⟩ := exists_course hm hverify h
  obtain ⟨name, f, hcallee, hf, hfunction⟩ := Module.exists_callee_of_verifyOp
    (Module.of_verify hverify (hm.mem_walk_iff.2 ho)).1 hcall
  obtain ⟨hlookup, hkind⟩ := hcourse.lookup?_eq ho ho' hf hfunction
  have hlt : o.index < m.ops.size := by
    obtain ⟨b, hb⟩ := Module.exists_parent_of_isAttached ho
    exact Module.op_lt_of_parent hb
  have hplain : m.kind o ≠ .sol .ret := fun hret => by
    rw [hret] at hcall
    cases hcall
  refine ⟨name, f, hcallee, ?_, hf, hlookup, hfunction, by rw [hkind]; rfl,
    fun a ha => hcourse.finishes.isSymbolTable_eq ho' ha⟩
  rw [Module.callee?, hcourse.attr?_eq hlt hplain (by decide) (by decide)]
  exact hcallee

/-- A contract with a function, and an object in it whose function calls that of the contract. -/
def nestedCall : Builder :=
  [Command.build (.container .contract "X_deployed"), .build (.toEnd ⟨1⟩),
    .build (.func "f" ⟨[], []⟩), .build (.container .object "Y"), .build (.toEnd ⟨2⟩),
    .build (.funcReturn []), .build (.toEnd ⟨3⟩), .build (.func "g" ⟨[], []⟩), .build (.toEnd ⟨4⟩),
    .build (.funcCall "f" [] []), .build (.funcReturn [])].foldl
    (fun b c => c.run b) (.new (.new .unknown))

/-- The call means the function of the contract, before and after legalization. -/
theorem nestedCall_resolved :
    ∃ stats n, legalize.run nestedCall.ir = .ok stats n ∧
      nestedCall.ir.lookup? ⟨5⟩ "f" = some ⟨1⟩ ∧ n.lookup? ⟨5⟩ "f" = some ⟨1⟩ := by
  have hm : nestedCall.ir.Linked :=
    ((Builder.Reachable.new .unknown).foldl (by decide +kernel)).sound.linked
  have hends : Outcome.endsIn legalize nestedCall.ir (fun n => n.isAttached ⟨5⟩) = true := by
    decide +kernel
  obtain ⟨stats, n, h, ho⟩ := Outcome.exists_of_endsIn hends
  obtain ⟨name, f, hcallee, -, hf, hf', -⟩ := legalize_preserves_resolution (o := ⟨5⟩) hm
    (by decide +kernel) h (by decide +kernel) (by decide +kernel) ho
  have hname : nestedCall.ir.callee? ⟨5⟩ = some "f" := by decide +kernel
  obtain rfl := Option.some.inj (hcallee.symm.trans hname)
  have hfound : nestedCall.ir.lookup? ⟨5⟩ "f" = some ⟨1⟩ := by decide +kernel
  obtain rfl := Option.some.inj (hf.symm.trans hfound)
  exact ⟨stats, n, h, hf, hf'⟩

end ContractIR.EraVM
