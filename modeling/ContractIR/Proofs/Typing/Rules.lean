import ContractIR.Proofs.Verification.Rules

/-!
# Rules as typing rules

For constants, arithmetic, cells, memory and conversions the rule of the verifier is about the
operation alone: how many regions it owns, which attributes it has, and which types its operands and
results have.  Here this is said in one typing rule for each kind, without the order in which the
verifier looks at things.

## Main definitions

* `ContractIR.OpKind.isTyped` — the rule of the kind is a typing rule.
* `ContractIR.OpKind.Accepts` — the typing rule of a kind.

## Main results

* `ContractIR.Module.verifyOp_eq_ok_iff_accepts` — what the verifier accepts is what the typing rule
  says.
-/

set_option autoImplicit false

namespace ContractIR

/-! ## Parts of types -/

namespace Ty

variable {t u : Ty}

/-- The test for integer types. -/
theorem isInt_iff : t.isInt = true ↔ ∃ w, t = .int w := by
  cases t <;> simp [isInt]

/-- The test for pointers. -/
theorem isPtr_iff : t.isPtr = true ↔ ∃ s, t = .ptr s := by
  cases t <;> simp [isPtr]

/-- What the cells of a type hold. -/
theorem element?_eq_some_iff : t.element? = some u ↔ t = .memref u := by
  cases t <;> simp [element?]

/-- The test for a wider integer type. -/
theorem widens_iff : Build.widens t u = true ↔ ∃ v w, v < w ∧ t = .int v ∧ u = .int w := by
  cases t <;> cases u <;> simp [Build.widens, width?]

end Ty

/-! ## Typing rules -/

namespace OpKind

/-- Whether the rule of a kind is a typing rule: it is about attributes and types alone. -/
def isTyped : OpKind → Bool
  | .arith _ | .memref _ => true
  | .llvm op =>
    match op with
    | .constant | .add | .mul | .and | .lshr | .sext | .zext | .icmp | .alloca | .load | .store
    | .ptrToInt | .intToPtr => true
    | _ => false
  | _ => false

/-- The typing rule of a kind: the types that operations with some attributes read and give. -/
def Accepts (kind : OpKind) (attrs : AttrDict) (ins outs : List Ty) : Prop :=
  match kind with
  | .arith .constant | .llvm .constant =>
    ∃ n w, attrs.get? AttrName.value = some (.int n (.int w)) ∧ ins = [] ∧ outs = [.int w]
  | .arith .addi | .arith .muli | .arith .andi
  | .llvm .add | .llvm .mul | .llvm .and | .llvm .lshr =>
    ∃ w, ins = [.int w, .int w] ∧ outs = [.int w]
  | .arith .cmpi | .llvm .icmp =>
    (∃ p : Predicate, attrs.get? AttrName.predicate = some (.str p.name)) ∧
      ∃ w, ins = [.int w, .int w] ∧ outs = [Ty.i1]
  | .arith .extsi | .arith .extui | .llvm .sext | .llvm .zext =>
    ∃ v w, v < w ∧ ins = [.int v] ∧ outs = [.int w]
  | .memref .alloca => ∃ t, ins = [] ∧ outs = [.memref t]
  | .memref .load => ∃ t, ins = [.memref t] ∧ outs = [t]
  | .memref .store => ∃ t, ins = [t, .memref t] ∧ outs = []
  | .llvm .alloca =>
    (∃ t, attrs.get? AttrName.elemType = some (.type t)) ∧ ∃ s, ins = [] ∧ outs = [.ptr s]
  | .llvm .load => ∃ s t, ins = [.ptr s] ∧ outs = [t]
  | .llvm .store => ∃ t s, ins = [t, .ptr s] ∧ outs = []
  | .llvm .ptrToInt => ∃ s w, ins = [.ptr s] ∧ outs = [.int w]
  | .llvm .intToPtr => ∃ w s, ins = [.int w] ∧ outs = [.ptr s]
  | _ => False

end OpKind

/-- Comparisons are found under their names only. -/
theorem Predicate.isSome_ofName?_iff {s : String} :
    (ofName? s).isSome = true ↔ ∃ p : Predicate, s = p.name := by
  constructor
  · intro h
    obtain ⟨p, hp⟩ := Option.isSome_iff_exists.1 h
    have hname := List.find?_some (show all.find? (fun q => q.name == s) = some p from hp)
    exact ⟨p, (eq_of_beq hname).symm⟩
  · rintro ⟨p, rfl⟩
    rw [ofName?_name, Option.isSome_some]

namespace Attr

variable {a : Option Attr}

/-- An integer attribute is read as it is. -/
theorem bind_int?_eq_some_iff {n : Int} {t : Ty} :
    a.bind int? = some (n, t) ↔ a = some (.int n t) := by
  rcases a with _ | a
  · simp
  · cases a <;> simp [int?]

/-- The test for a type attribute. -/
theorem isSome_type_iff : (a.bind type?).isSome = true ↔ ∃ t, a = some (.type t) := by
  rcases a with _ | a
  · simp
  · cases a <;> simp [type?]

/-- The test for the attribute of a predicate. -/
theorem isSome_predicate_iff : ((a.bind str?).bind Predicate.ofName?).isSome = true ↔
    ∃ p : Predicate, a = some (.str p.name) := by
  rcases a with _ | a
  · simp
  · cases a <;> simp [str?, Predicate.isSome_ofName?_iff]

end Attr

namespace Module

variable {m : Module} {o : OpId}

/-! ## Checks of types -/

/-- An operation that owns no region reads and gives values of some types. -/
structure Typed (m : Module) (o : OpId) (ins outs : List Ty) : Prop where
  regions : (m.op o).regions = []
  operands : m.typesOf (m.op o).operands = ins
  results : m.typesOf (m.op o).results = outs

namespace Typed

variable {ins outs : List Ty} {t : Ty}

/-- The type of an operand is found among those of all. -/
theorem operandType (h : m.Typed o ins outs) {i : Nat} (ht : ins[i]? = some t) :
    m.operandType o i = t := by
  rw [← h.operands, typesOf, List.getElem?_map] at ht
  obtain ⟨v, hv, rfl⟩ := Option.map_eq_some_iff.1 ht
  rw [Module.operandType, List.getD_eq_getElem?_getD, hv]
  rfl

/-- The type of the only result. -/
theorem resultType (h : m.Typed o ins [t]) : m.resultType o = t := by
  obtain ⟨v, hv, rfl⟩ := List.map_eq_singleton_iff.1 h.results
  rw [Module.resultType, hv]
  rfl

/-- The numbers of operands and results are those of their types. -/
theorem verifyCounts (h : m.Typed o ins outs) :
    m.verifyCounts o ins.length outs.length 0 = .ok () := by
  obtain ⟨hregions, rfl, rfl⟩ := h
  exact verifyCounts_eq_ok_iff.2
    ⟨(List.length_map _).symm, (List.length_map _).symm, by rw [hregions, List.length_nil]⟩

end Typed

/-- A rule that counts operands and results and looks at their types then is a typing rule. -/
theorem typing_of_counts {operands results : Nat} {check : Unit → Check Unit}
    {R : List Ty → List Ty → Prop}
    (hlength : ∀ ins outs, R ins outs → ins.length = operands ∧ outs.length = results)
    (hcheck : ∀ ins outs, m.Typed o ins outs → ins.length = operands → outs.length = results →
      (check () = .ok () ↔ R ins outs)) :
    (m.verifyCounts o operands results 0 >>= check) = .ok () ↔
      (m.op o).regions = [] ∧
        R (m.typesOf (m.op o).operands) (m.typesOf (m.op o).results) := by
  have hins : (m.typesOf (m.op o).operands).length = (m.op o).operands.length := List.length_map _
  have houts : (m.typesOf (m.op o).results).length = (m.op o).results.length := List.length_map _
  rw [Outcome.bind_unit_eq_ok, verifyCounts_eq_ok_iff, List.length_eq_zero_iff, ← hins, ← houts]
  constructor
  · rintro ⟨⟨hi, ho, hregions⟩, h⟩
    exact ⟨hregions, (hcheck _ _ ⟨hregions, rfl, rfl⟩ hi ho).1 h⟩
  · rintro ⟨hregions, hR⟩
    obtain ⟨hi, ho⟩ := hlength _ _ hR
    exact ⟨⟨hi, ho, hregions⟩, (hcheck _ _ ⟨hregions, rfl, rfl⟩ hi ho).2 hR⟩

/-! ## Rules -/

/-- The rule of arithmetic. -/
theorem verifyBinary_eq_ok_iff : m.verifyBinary o = .ok () ↔ (m.op o).regions = [] ∧
    ∃ w, m.typesOf (m.op o).operands = [.int w, .int w] ∧
      m.typesOf (m.op o).results = [.int w] := by
  refine typing_of_counts (R := fun ins outs => ∃ w, ins = [.int w, .int w] ∧ outs = [.int w])
    (by rintro _ _ ⟨w, rfl, rfl⟩; exact ⟨rfl, rfl⟩) fun ins outs h hi ho => ?_
  obtain ⟨t, u, rfl⟩ := List.length_eq_two.1 hi
  obtain ⟨v, rfl⟩ := List.length_eq_one_iff.1 ho
  rw [require_eq_ok, h.operandType (i := 0) rfl, h.operandType (i := 1) rfl, h.resultType,
    Bool.and_eq_true, Bool.and_eq_true, decide_eq_true_iff, decide_eq_true_iff, Ty.isInt_iff]
  constructor
  · rintro ⟨⟨⟨w, rfl⟩, rfl⟩, rfl⟩
    exact ⟨w, rfl, rfl⟩
  · rintro ⟨w, ⟨⟩, ⟨⟩⟩
    exact ⟨⟨⟨w, rfl⟩, rfl⟩, rfl⟩

/-- The rule of comparisons.

**Proof sketch.** The numbers of operands and results make the types a list of two and a list of
one (`typing_of_counts`); the checks are then equations between these. -/
theorem verifyComparison_eq_ok_iff : m.verifyComparison o = .ok () ↔ (m.op o).regions = [] ∧
    (∃ p : Predicate, (m.op o).attrs.get? AttrName.predicate = some (.str p.name)) ∧
      ∃ w, m.typesOf (m.op o).operands = [.int w, .int w] ∧
        m.typesOf (m.op o).results = [Ty.i1] := by
  refine typing_of_counts (R := fun ins outs =>
      (∃ p : Predicate, (m.op o).attrs.get? AttrName.predicate = some (.str p.name)) ∧
        ∃ w, ins = [.int w, .int w] ∧ outs = [Ty.i1])
    (by rintro _ _ ⟨-, w, rfl, rfl⟩; exact ⟨rfl, rfl⟩) fun ins outs h hi ho => ?_
  obtain ⟨t, u, rfl⟩ := List.length_eq_two.1 hi
  obtain ⟨v, rfl⟩ := List.length_eq_one_iff.1 ho
  rw [h.operandType (i := 0) rfl, h.operandType (i := 1) rfl, h.resultType,
    Outcome.bind_unit_eq_ok, Outcome.bind_unit_eq_ok, require_eq_ok, require_eq_ok, require_eq_ok,
    Bool.and_eq_true, decide_eq_true_iff, decide_eq_true_iff, Ty.isInt_iff, attr?,
    Attr.isSome_predicate_iff]
  constructor
  · rintro ⟨⟨⟨w, rfl⟩, rfl⟩, rfl, hp⟩
    exact ⟨hp, w, rfl, rfl⟩
  · rintro ⟨hp, w, ⟨⟩, ⟨⟩⟩
    exact ⟨⟨⟨w, rfl⟩, rfl⟩, rfl, hp⟩

/-- The rule of extensions. -/
theorem verifyExtension_eq_ok_iff : m.verifyExtension o = .ok () ↔ (m.op o).regions = [] ∧
    ∃ v w, v < w ∧ m.typesOf (m.op o).operands = [.int v] ∧
      m.typesOf (m.op o).results = [.int w] := by
  refine typing_of_counts (R := fun ins outs => ∃ v w, v < w ∧ ins = [.int v] ∧ outs = [.int w])
    (by rintro _ _ ⟨v, w, -, rfl, rfl⟩; exact ⟨rfl, rfl⟩) fun ins outs h hi ho => ?_
  obtain ⟨t, rfl⟩ := List.length_eq_one_iff.1 hi
  obtain ⟨u, rfl⟩ := List.length_eq_one_iff.1 ho
  rw [require_eq_ok, h.operandType (i := 0) rfl, h.resultType, Ty.widens_iff]
  simp only [List.cons.injEq, and_true]

/-- The rule of constants.

**Proof sketch.** The numbers make the types lists of none and of one (`typing_of_counts`).  By
the attribute: without a number the check fails, with one its type is compared with that of the
result. -/
theorem verifyConstant_eq_ok_iff : m.verifyConstant o = .ok () ↔ (m.op o).regions = [] ∧
    ∃ n w, (m.op o).attrs.get? AttrName.value = some (.int n (.int w)) ∧
      m.typesOf (m.op o).operands = [] ∧ m.typesOf (m.op o).results = [.int w] := by
  refine typing_of_counts (R := fun ins outs => ∃ n w,
      (m.op o).attrs.get? AttrName.value = some (.int n (.int w)) ∧ ins = [] ∧ outs = [.int w])
    (by rintro _ _ ⟨n, w, -, rfl, rfl⟩; exact ⟨rfl, rfl⟩) fun ins outs h hi ho => ?_
  obtain rfl := List.length_eq_zero_iff.1 hi
  obtain ⟨t, rfl⟩ := List.length_eq_one_iff.1 ho
  rw [h.resultType, attr?]
  cases hattr : ((m.op o).attrs.get? AttrName.value).bind Attr.int? with
  | none =>
    constructor
    · intro hcheck
      cases hcheck
    · rintro ⟨n, w, hvalue, -⟩
      rw [hvalue] at hattr
      cases hattr
  | some found =>
    obtain ⟨n, ty⟩ := found
    have hvalue := Attr.bind_int?_eq_some_iff.1 hattr
    dsimp only
    rw [require_eq_ok, Bool.and_eq_true, decide_eq_true_iff, Ty.isInt_iff]
    constructor
    · rintro ⟨rfl, w, rfl⟩
      exact ⟨n, w, hvalue, rfl, rfl⟩
    · rintro ⟨k, w, hk, -, ⟨⟩⟩
      rw [hk] at hvalue
      cases hvalue
      exact ⟨rfl, w, rfl⟩

/-- The rules of cells.

**Proof sketch.** One case for each kind: the numbers fix the shapes of the type lists
(`typing_of_counts`), and the check compares what the cell holds. -/
theorem verifyOp_eq_ok_iff_of_memref {k : MemrefOp} (hk : m.kind o = .memref k) :
    m.verifyOp o = .ok () ↔ (m.op o).regions = [] ∧
      (OpKind.memref k).Accepts (m.op o).attrs (m.typesOf (m.op o).operands)
        (m.typesOf (m.op o).results) := by
  rw [verifyOp, hk]
  cases k with
  | alloca =>
    refine typing_of_counts (by rintro _ _ ⟨t, rfl, rfl⟩; exact ⟨rfl, rfl⟩)
      fun ins outs h hi ho => ?_
    obtain rfl := List.length_eq_zero_iff.1 hi
    obtain ⟨t, rfl⟩ := List.length_eq_one_iff.1 ho
    rw [require_eq_ok, h.resultType, Option.isSome_iff_exists]
    simp only [OpKind.Accepts, Ty.element?_eq_some_iff, List.cons.injEq, and_true, true_and]
  | load =>
    refine typing_of_counts (by rintro _ _ ⟨t, rfl, rfl⟩; exact ⟨rfl, rfl⟩)
      fun ins outs h hi ho => ?_
    obtain ⟨t, rfl⟩ := List.length_eq_one_iff.1 hi
    obtain ⟨u, rfl⟩ := List.length_eq_one_iff.1 ho
    rw [require_eq_ok, h.operandType (i := 0) rfl, h.resultType, decide_eq_true_iff,
      Ty.element?_eq_some_iff]
    simp [OpKind.Accepts]
  | store =>
    refine typing_of_counts (by rintro _ _ ⟨t, rfl, rfl⟩; exact ⟨rfl, rfl⟩)
      fun ins outs h hi ho => ?_
    obtain ⟨t, u, rfl⟩ := List.length_eq_two.1 hi
    obtain rfl := List.length_eq_zero_iff.1 ho
    rw [require_eq_ok, h.operandType (i := 0) rfl, h.operandType (i := 1) rfl,
      decide_eq_true_iff, Ty.element?_eq_some_iff]
    simp [OpKind.Accepts]

/-- The rules of memory and of pointers as integers.

**Proof sketch.** One case for each kind: the numbers fix the shapes of the type lists
(`typing_of_counts`), and the check asks whether the addresses are pointers. -/
theorem verifyOp_eq_ok_iff_of_memory {k : LlvmOp} (hk : m.kind o = .llvm k)
    (hmemory : k ∈ [LlvmOp.alloca, .load, .store, .ptrToInt, .intToPtr]) :
    m.verifyOp o = .ok () ↔ (m.op o).regions = [] ∧
      (OpKind.llvm k).Accepts (m.op o).attrs (m.typesOf (m.op o).operands)
        (m.typesOf (m.op o).results) := by
  rw [verifyOp, hk]
  cases k with
  | alloca =>
    refine typing_of_counts (by rintro _ _ ⟨-, s, rfl, rfl⟩; exact ⟨rfl, rfl⟩)
      fun ins outs h hi ho => ?_
    obtain rfl := List.length_eq_zero_iff.1 hi
    obtain ⟨t, rfl⟩ := List.length_eq_one_iff.1 ho
    rw [Outcome.bind_unit_eq_ok, verifyElemType, require_eq_ok, require_eq_ok, h.resultType,
      Ty.isPtr_iff, attr?, Attr.isSome_type_iff]
    simp [OpKind.Accepts]
  | load =>
    refine typing_of_counts (by rintro _ _ ⟨s, t, rfl, rfl⟩; exact ⟨rfl, rfl⟩)
      fun ins outs h hi ho => ?_
    obtain ⟨t, rfl⟩ := List.length_eq_one_iff.1 hi
    obtain ⟨u, rfl⟩ := List.length_eq_one_iff.1 ho
    rw [verifyPointer, require_eq_ok, h.operandType (i := 0) rfl, Ty.isPtr_iff]
    simp [OpKind.Accepts]
  | store =>
    refine typing_of_counts (by rintro _ _ ⟨t, s, rfl, rfl⟩; exact ⟨rfl, rfl⟩)
      fun ins outs h hi ho => ?_
    obtain ⟨t, u, rfl⟩ := List.length_eq_two.1 hi
    obtain rfl := List.length_eq_zero_iff.1 ho
    rw [verifyPointer, require_eq_ok, h.operandType (i := 1) rfl, Ty.isPtr_iff]
    simp [OpKind.Accepts]
  | ptrToInt =>
    refine typing_of_counts (by rintro _ _ ⟨s, w, rfl, rfl⟩; exact ⟨rfl, rfl⟩)
      fun ins outs h hi ho => ?_
    obtain ⟨t, rfl⟩ := List.length_eq_one_iff.1 hi
    obtain ⟨u, rfl⟩ := List.length_eq_one_iff.1 ho
    rw [Outcome.bind_unit_eq_ok, verifyPointer, require_eq_ok, require_eq_ok,
      h.operandType (i := 0) rfl, h.resultType, Ty.isPtr_iff, Ty.isInt_iff]
    simp [OpKind.Accepts]
  | intToPtr =>
    refine typing_of_counts (by rintro _ _ ⟨w, s, rfl, rfl⟩; exact ⟨rfl, rfl⟩)
      fun ins outs h hi ho => ?_
    obtain ⟨t, rfl⟩ := List.length_eq_one_iff.1 hi
    obtain ⟨u, rfl⟩ := List.length_eq_one_iff.1 ho
    rw [require_eq_ok, h.operandType (i := 0) rfl, h.resultType, Bool.and_eq_true, Ty.isInt_iff,
      Ty.isPtr_iff]
    simp [OpKind.Accepts]
  | _ => simp at hmemory

/-- The rule of address arithmetic.

**Proof sketch.** The checks are one after the other: a base and one result, the base a pointer
of the type of the result, integers behind it, and the element type; the lists are taken apart by
their lengths. -/
theorem verifyGep_eq_ok_iff : m.verifyGep o = .ok () ↔
    (∃ t, (m.op o).attrs.get? AttrName.elemType = some (.type t)) ∧
      ∃ s indices, (∀ t ∈ indices, t.isInt = true) ∧
        m.typesOf (m.op o).operands = .ptr s :: indices ∧
        m.typesOf (m.op o).results = [.ptr s] := by
  rw [verifyGep, Outcome.bind_unit_eq_ok, Outcome.bind_unit_eq_ok, Outcome.bind_unit_eq_ok,
    Outcome.bind_unit_eq_ok, require_eq_ok, verifyPointer, require_eq_ok, require_eq_ok,
    require_eq_ok, verifyElemType, require_eq_ok, attr?, Attr.isSome_type_iff, Ty.isPtr_iff,
    decide_eq_true_iff, decide_eq_true_iff, List.all_eq_true, operandType, resultType, typesOf,
    typesOf]
  constructor
  · rintro ⟨⟨hne, hlength⟩, ⟨s, hs⟩, hresult, hindices, helem⟩
    obtain ⟨base, rest, hoperands⟩ := List.exists_cons_of_ne_nil hne
    obtain ⟨v, hv⟩ := List.length_eq_one_iff.1 hlength
    rw [hoperands] at hs hresult hindices
    rw [hv] at hresult
    refine ⟨helem, s, rest.map m.typeOf, List.forall_mem_map.2 hindices, ?_, ?_⟩
    · rw [hoperands, List.map_cons, ← hs]
      rfl
    · rw [hv, List.map_singleton, ← hs]
      exact congrArg (fun t => [t]) hresult
  · rintro ⟨helem, s, indices, hindices, hins, houts⟩
    obtain ⟨base, rest, hoperands, hbase, rfl⟩ := List.map_eq_cons_iff.1 hins
    obtain ⟨v, hv, hresult⟩ := List.map_eq_singleton_iff.1 houts
    rw [hoperands, hv]
    exact ⟨⟨List.cons_ne_nil _ _, rfl⟩, ⟨s, hbase⟩, hresult.trans hbase.symm,
      List.forall_mem_map.1 hindices, helem⟩

/-! ## All rules -/

/-- **What the verifier accepts is what the typing rule says**, for operations whose rule is a
typing rule.

**Proof sketch.** Each of these rules counts operands, results and regions first.  With the right
numbers the lists of types are spelled out (`typing_of_counts`), and what is left are conditions on
single types. -/
theorem verifyOp_eq_ok_iff_accepts (hkind : (m.kind o).isTyped = true) :
    m.verifyOp o = .ok () ↔ (m.op o).regions = [] ∧
      (m.kind o).Accepts (m.op o).attrs (m.typesOf (m.op o).operands)
        (m.typesOf (m.op o).results) := by
  cases hk : m.kind o with
  | sol op => rw [hk] at hkind; cases hkind
  | func op => rw [hk] at hkind; cases hkind
  | memref op => exact verifyOp_eq_ok_iff_of_memref hk
  | arith op =>
    rw [verifyOp, hk]
    cases op with
    | constant => exact verifyConstant_eq_ok_iff
    | addi | muli | andi => exact verifyBinary_eq_ok_iff
    | cmpi => exact verifyComparison_eq_ok_iff
    | extsi | extui => exact verifyExtension_eq_ok_iff
  | llvm op =>
    rw [hk] at hkind
    cases op with
    | alloca | load | store | ptrToInt | intToPtr =>
      exact verifyOp_eq_ok_iff_of_memory hk (by decide)
    | constant => rw [verifyOp, hk]; exact verifyConstant_eq_ok_iff
    | add | mul | and | lshr => rw [verifyOp, hk]; exact verifyBinary_eq_ok_iff
    | icmp => rw [verifyOp, hk]; exact verifyComparison_eq_ok_iff
    | sext | zext => rw [verifyOp, hk]; exact verifyExtension_eq_ok_iff
    | _ => cases hkind

end Module

end ContractIR
