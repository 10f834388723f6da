import ContractIR.Proofs.Builder.Failures
import ContractIR.Proofs.Typing.Cursor
import ContractIR.Proofs.Typing.Rules

/-!
# Builders and the verifier agree

A builder looks at the types of the operands before it creates an operation, and the verifier looks
at the types of the operation afterwards.  Both are compared with the typing rule of the kind: a
step creates an operation that the rule accepts, or there is no such operation with the operands,
the attributes and the result type that the step was asked for, and the step fails.

## Main definitions

* `ContractIR.Request`, `ContractIR.Helper.request?` — the operation that a step is asked for.
* `ContractIR.Request.Allows` — the results that the operation may have.
* `ContractIR.Follows` — a step creates an operation that the typing rule accepts, or there is none.

## Main results

* `ContractIR.Module.verifyOp_addOp_iff` — when the verifier accepts an operation that was added.
* `ContractIR.follows_of_request` — each step follows the typing rule.
* `ContractIR.Builder.agrees_with_verifier` — a step succeeds if and only if the verifier accepts
  the operation that it was asked for, and a failed step changes nothing.
-/

set_option autoImplicit false

namespace ContractIR

open Build (forget)

/-! ## Operations that were added -/

/-- **When the verifier accepts an operation that was added** from operands that exist. -/
theorem Module.verifyOp_addOp_iff {m : Module} {spec : OpSpec} {location : Location} {x : BlockId}
    {index : Option Nat} (hkind : spec.kind.isTyped = true) (hregions : spec.regions = 0)
    (hoperands : ∀ v ∈ spec.operands, m.HasValue v) :
    (m.addOp spec location x index).verifyOp ⟨m.ops.size⟩ = .ok () ↔
      spec.kind.Accepts spec.attrs (m.typesOf spec.operands) spec.results := by
  have hop : (m.addOp spec location x index).op ⟨m.ops.size⟩ =
      spec.toOp location m.values.size m.regions.size (some x) := by
    rw [op_addOp, if_pos rfl]
  have hk : (m.addOp spec location x index).kind ⟨m.ops.size⟩ = spec.kind := by
    rw [kind, hop]
    rfl
  have hins : (m.addOp spec location x index).typesOf spec.operands = m.typesOf spec.operands := by
    refine List.map_congr_left fun v hv => ?_
    rw [typeOf, typeOf, value_addOp_of_lt m spec location x index (hoperands v hv)]
  have hresults := m.typesOf_results_addOp spec location x index
  rw [hop] at hresults
  rw [verifyOp_eq_ok_iff_accepts (hk ▸ hkind), hk, hop, hresults]
  simp only [OpSpec.toOp, hregions, List.range_zero, List.map_nil, true_and, hins]

/-! ## Requests -/

/-- The operation that a step is asked for, with the type of its result if the step is given one. -/
structure Request where
  kind : OpKind
  operands : List ValueId := []
  attrs : AttrDict := {}
  result? : Option Ty := none

namespace Request

/-- The operation may have results of these types: the requested one, or any without a request. -/
def Allows (q : Request) (outs : List Ty) : Prop := ∀ ty ∈ q.result?, outs = [ty]

/-- Any results will do without a request. -/
theorem allows_of_none {q : Request} (h : q.result? = none) (outs : List Ty) : q.Allows outs := by
  intro ty hty
  rw [h] at hty
  cases hty

/-- A requested type has to be the type of the only result. -/
theorem allows_iff_of_some {q : Request} {ty : Ty} (h : q.result? = some ty) {outs : List Ty} :
    q.Allows outs ↔ outs = [ty] := by
  simp [Allows, h]

/-- The operation with results of some types. -/
def spec (q : Request) (outs : List Ty) : Module.OpSpec :=
  { kind := q.kind, operands := q.operands, results := outs, attrs := q.attrs }

/-- An operation with two operands. -/
def binary (kind : OpKind) (v w : ValueId) : Request := { kind := kind, operands := [v, w] }

/-- An integer constant. -/
def integer (kind : OpKind) (n : Int) (ty : Ty) : Request :=
  { kind := kind, attrs := .ofList [(AttrName.value, .int n ty)], result? := some ty }

/-- A comparison. -/
def compare (kind : OpKind) (p : Predicate) (v w : ValueId) : Request :=
  { kind := kind, operands := [v, w], attrs := .ofList [(AttrName.predicate, p.toAttr)] }

/-- A conversion of a value to a type. -/
def convert (kind : OpKind) (v : ValueId) (target : Ty) : Request :=
  { kind := kind, operands := [v], result? := some target }

end Request

/-- What a step is asked for, if it creates an operation whose rule is a typing rule. -/
def Helper.request? : Helper → Option Request
  | .constant n ty => some (.integer (.arith .constant) n ty)
  | .addi v w => some (.binary (.arith .addi) v w)
  | .muli v w => some (.binary (.arith .muli) v w)
  | .andi v w => some (.binary (.arith .andi) v w)
  | .cmpi p v w => some (.compare (.arith .cmpi) p v w)
  | .extsi v target => some (.convert (.arith .extsi) v target)
  | .extui v target => some (.convert (.arith .extui) v target)
  | .allocaCell elem => some { kind := .memref .alloca, result? := some (.memref elem) }
  | .loadCell cell => some { kind := .memref .load, operands := [cell] }
  | .storeCell v cell => some (.binary (.memref .store) v cell)
  | .llvmConstant n ty => some (.integer (.llvm .constant) n ty)
  | .llvmBinary kind v w =>
    if Build.Llvm.isBinary kind then some (.binary (.llvm kind) v w) else none
  | .llvmIcmp p v w => some (.compare (.llvm .icmp) p v w)
  | .llvmExtend kind v target =>
    if Build.Llvm.isExtension kind then some (.convert (.llvm kind) v target) else none
  | .llvmAlloca elem =>
    some { kind := .llvm .alloca, attrs := .ofList [(AttrName.elemType, .type elem)] }
  | .llvmLoad ptr ty => some (.convert (.llvm .load) ptr ty)
  | .llvmStore v ptr => some (.binary (.llvm .store) v ptr)
  | .llvmPtrToInt ptr target => some (.convert (.llvm .ptrToInt) ptr target)
  | .llvmIntToPtr v target => some (.convert (.llvm .intToPtr) v target)
  | _ => none

/-- Steps create operations whose rule is a typing rule. -/
theorem isTyped_of_request {h : Helper} {q : Request} (hq : h.request? = some q) :
    q.kind.isTyped = true := by
  cases h with
  | llvmBinary kind v w =>
    cases kind <;> first | (cases hq; rfl) | cases hq
  | llvmExtend kind v target =>
    cases kind <;> first | (cases hq; rfl) | cases hq
  | _ => first | (cases hq; rfl) | cases hq

/-! ## Steps and typing rules -/

/-- A step creates an operation that the typing rule accepts, or there is none and the step
fails. -/
inductive Follows (b : Builder) (q : Request) (x : Build Unit) : Prop
  | creates (outs : List Ty) (hallows : q.Allows outs)
    (haccepts : q.kind.Accepts q.attrs (b.ir.typesOf q.operands) outs)
    (hrun : x.run b = (forget (Build.op (q.spec outs))).run b)
  | refuses (e : IrError)
    (hnone : ∀ outs, q.Allows outs → ¬ q.kind.Accepts q.attrs (b.ir.typesOf q.operands) outs)
    (hrun : x.run b = .error e b)

section Runs

variable {α β : Type} {b : Builder}

/-- A step after one that leaves the builder as it was. -/
theorem run_forget_of_ok {x : Build α} {f : α → Build β} {a : α} (h : x.run b = .ok a b) :
    (forget (x >>= f)).run b = (forget (f a)).run b := by
  unfold forget
  rw [EStateM.run_bind, EStateM.run_bind, EStateM.run_bind, h]

/-- A step after one that fails. -/
theorem run_forget_of_error {x : Build α} {f : α → Build β} {e : IrError}
    (h : x.run b = .error e b) : (forget (x >>= f)).run b = .error e b := by
  unfold forget
  rw [EStateM.run_bind, EStateM.run_bind, h]

/-- Asking for the type of a value changes nothing. -/
theorem run_typeOf (v : ValueId) : (Build.typeOf v).run b = .ok (b.ir.typeOf v) b := rfl

/-- Without the answer it is the same to ask for the result. -/
theorem run_forget_value (spec : Module.OpSpec) :
    (forget (Build.value spec)).run b = (forget (Build.op spec)).run b := by
  obtain ⟨ir, point, location⟩ := b
  cases point <;> rfl

/-- Two integers of one type. -/
theorem run_sameInteger_of_eq {kind : OpKind} {v w : ValueId} {n : Nat}
    (hv : b.ir.typeOf v = .int n) (hw : b.ir.typeOf w = .int n) :
    (Build.sameInteger kind v w).run b = .ok (.int n) b := by
  unfold Build.sameInteger
  rw [EStateM.run_bind, run_typeOf, hv]
  dsimp only
  rw [EStateM.run_bind, run_typeOf, hw]
  dsimp only
  rw [if_pos ⟨rfl, rfl⟩]
  rfl

/-- Other values are refused. -/
theorem run_sameInteger_of_ne (kind : OpKind) {v w : ValueId}
    (h : ¬ ∃ n, b.ir.typeOf v = .int n ∧ b.ir.typeOf w = .int n) :
    ∃ e, (Build.sameInteger kind v w).run b = .error e b := by
  unfold Build.sameInteger
  rw [EStateM.run_bind, run_typeOf]
  dsimp only
  rw [EStateM.run_bind, run_typeOf]
  dsimp only
  rw [if_neg]
  · exact ⟨_, rfl⟩
  · rintro ⟨hint, heq⟩
    obtain ⟨n, hn⟩ := Ty.isInt_iff.1 hint
    exact h ⟨n, hn, heq ▸ hn⟩

end Runs

section Families

variable {b : Builder} {kind : OpKind} {v w : ValueId}

/-- A step that creates the operation under a condition follows the rule if the condition is what
the rule asks for. -/
theorem Follows.of_check {α : Type} {q : Request} {x : Build α} {y : Build Unit} {c : Prop}
    [Decidable c] {e : IrError} (outs : List Ty)
    (hx : (forget x).run b = (forget (Build.op (q.spec outs))).run b)
    (hrun : y.run b = (forget (if c then x else throw e)).run b)
    (hpos : c → q.Allows outs ∧ q.kind.Accepts q.attrs (b.ir.typesOf q.operands) outs)
    (hneg : ∀ outs, q.Allows outs → q.kind.Accepts q.attrs (b.ir.typesOf q.operands) outs → c) :
    Follows b q y := by
  by_cases hc : c
  · rw [if_pos hc, hx] at hrun
    exact .creates outs (hpos hc).1 (hpos hc).2 hrun
  · rw [if_neg hc] at hrun
    exact .refuses e (fun outs hallows haccepts => hc (hneg outs hallows haccepts)) hrun

/-- A constant is built if its type is that of an integer. -/
theorem follows_integer (hkind : kind.Accepts = OpKind.Accepts (.arith .constant)) (n : Int)
    (ty : Ty) : Follows b (.integer kind n ty) (forget (Build.integer kind n ty)) := by
  refine .of_check [ty] (run_forget_value _) rfl (fun hty => ?_) fun outs hallows haccepts => ?_
  · obtain ⟨k, rfl⟩ := Ty.isInt_iff.1 hty
    refine ⟨(Request.allows_iff_of_some rfl).2 rfl, ?_⟩
    rw [Request.integer, hkind]
    exact ⟨n, k, rfl, rfl, rfl⟩
  · rw [Request.integer, hkind] at haccepts
    obtain ⟨-, k, -, -, houts⟩ := haccepts
    obtain rfl := (Request.allows_iff_of_some rfl).1 hallows
    exact Ty.isInt_iff.2 ⟨k, List.head_eq_of_cons_eq houts⟩

/-- A step on two integers of one type follows the rule if the rule asks for two such operands. -/
theorem Follows.of_sameInteger {α : Type} {q : Request} {f : Ty → Build α} (outs : Ty → List Ty)
    (hrun : ∀ t, (forget (f t)).run b = (forget (Build.op (q.spec (outs t)))).run b)
    (hoperands : q.operands = [v, w])
    (hpos : ∀ n, q.Allows (outs (.int n)) ∧
      q.kind.Accepts q.attrs [.int n, .int n] (outs (.int n)))
    (hneg : ∀ ins outs, q.kind.Accepts q.attrs ins outs → ∃ n, ins = [.int n, .int n]) :
    Follows b q (forget (Build.sameInteger kind v w >>= f)) := by
  have hins : b.ir.typesOf q.operands = [b.ir.typeOf v, b.ir.typeOf w] := by
    rw [hoperands, Module.typesOf, List.map_cons, List.map_cons, List.map_nil]
  by_cases h : ∃ n, b.ir.typeOf v = .int n ∧ b.ir.typeOf w = .int n
  · obtain ⟨n, hv, hw⟩ := h
    refine .creates (outs (.int n)) (hpos n).1 ?_
      ((run_forget_of_ok (run_sameInteger_of_eq hv hw)).trans (hrun _))
    rw [hins, hv, hw]
    exact (hpos n).2
  · obtain ⟨e, he⟩ := run_sameInteger_of_ne kind h
    refine .refuses e (fun outs _ haccepts => ?_) (run_forget_of_error he)
    obtain ⟨n, hn⟩ := hneg _ outs haccepts
    rw [hins, List.cons.injEq, List.cons.injEq] at hn
    exact h ⟨n, hn.1, hn.2.1⟩

/-- Arithmetic is built on two integers of one type. -/
theorem follows_binary (hkind : kind.Accepts = OpKind.Accepts (.arith .addi)) :
    Follows b (.binary kind v w) (forget (Build.binary kind v w)) := by
  refine .of_sameInteger (fun t => [t]) (fun _ => run_forget_value _) rfl (fun n => ?_) ?_
  · rw [Request.binary, hkind]
    exact ⟨Request.allows_of_none rfl _, n, rfl, rfl⟩
  · rw [Request.binary, hkind]
    rintro ins outs ⟨n, hins, -⟩
    exact ⟨n, hins⟩

/-- A comparison is built of two integers of one type. -/
theorem follows_compare (hkind : kind.Accepts = OpKind.Accepts (.arith .cmpi)) (p : Predicate) :
    Follows b (.compare kind p v w) (forget (Build.compare kind p v w)) := by
  refine .of_sameInteger (fun _ => [Ty.i1]) (fun _ => run_forget_value _) rfl (fun n => ?_) ?_
  · rw [Request.compare, hkind]
    exact ⟨Request.allows_of_none rfl _, ⟨p, rfl⟩, n, rfl, rfl⟩
  · rw [Request.compare, hkind]
    rintro ins outs ⟨-, n, hins, -⟩
    exact ⟨n, hins⟩

/-- An extension is built from an integer to a wider one.

**Proof sketch.** By the check of the widths.  Where it passes, the operation is created and its
two types are those the rule asks for (`Ty.widens_iff`); where it does not, two types that the
rule accepts would contradict it. -/
theorem follows_extend (hkind : kind.Accepts = OpKind.Accepts (.arith .extsi)) (target : Ty) :
    Follows b (.convert kind v target) (forget (Build.extend kind v target)) := by
  by_cases h : Build.widens (b.ir.typeOf v) target = true
  · have hrun : (Build.checkWidening kind v target).run b = .ok () b := by
      unfold Build.checkWidening
      rw [EStateM.run_bind, run_typeOf]
      dsimp only
      rw [if_pos h]
      rfl
    refine .creates [target] ((Request.allows_iff_of_some rfl).2 rfl) ?_
      ((run_forget_of_ok hrun).trans (run_forget_value _))
    obtain ⟨m, n, hlt, hv, rfl⟩ := Ty.widens_iff.1 h
    rw [Request.convert, hkind]
    exact ⟨m, n, hlt, by rw [Module.typesOf, List.map_cons, hv, List.map_nil], rfl⟩
  · have hrun : (Build.checkWidening kind v target).run b =
        .error (.type (.notWidening kind (b.ir.typeOf v) target)) b := by
      unfold Build.checkWidening
      rw [EStateM.run_bind, run_typeOf]
      dsimp only
      rw [if_neg h]
      rfl
    refine .refuses _ ?_ (run_forget_of_error hrun)
    intro outs hallows haccepts
    rw [Request.convert, hkind] at haccepts
    obtain ⟨m, n, hlt, hins, houts⟩ := haccepts
    obtain rfl := (Request.allows_iff_of_some rfl).1 hallows
    simp only [Module.typesOf, List.map_cons, List.map_nil, List.cons.injEq, and_true] at hins houts
    exact h (Ty.widens_iff.2 ⟨m, n, hlt, hins, houts⟩)

/-- A cell is built for any type of content. -/
theorem follows_allocaCell (elem : Ty) :
    Follows b { kind := .memref .alloca, result? := some (.memref elem) }
      (forget (Build.allocaCell elem)) :=
  .creates [.memref elem] ((Request.allows_iff_of_some rfl).2 rfl) ⟨elem, rfl, rfl⟩
    (run_forget_value _)

/-- A reading is built of what a cell holds.

**Proof sketch.** By what the cell's type holds.  The type of a cell gives the result type, and
any other type refuses, because the rule asks for a cell (`Ty.element?_eq_some_iff`). -/
theorem follows_loadCell (cell : ValueId) :
    Follows b { kind := .memref .load, operands := [cell] } (forget (Build.loadCell cell)) := by
  cases h : (b.ir.typeOf cell).element? with
  | some elem =>
    refine .creates [elem] (Request.allows_of_none rfl _) ?_ ?_
    · rw [Ty.element?_eq_some_iff] at h
      exact ⟨elem, by rw [Module.typesOf, List.map_cons, h, List.map_nil], rfl⟩
    · refine (run_forget_of_ok (run_typeOf cell)).trans ?_
      rw [h]
      exact run_forget_value _
  | none =>
    refine .refuses (.type (.cellLoad (b.ir.typeOf cell))) ?_ ?_
    · rintro outs - ⟨t, hins, -⟩
      simp only [Module.typesOf, List.map_cons, List.map_nil, List.cons.injEq, and_true] at hins
      rw [hins] at h
      cases h
    · refine (run_forget_of_ok (run_typeOf cell)).trans ?_
      rw [h]
      rfl

/-- A writing is built of a value of the type that the cell holds. -/
theorem follows_storeCell (v cell : ValueId) :
    Follows b (.binary (.memref .store) v cell) (forget (Build.storeCell v cell)) := by
  refine .of_check [] rfl ((run_forget_of_ok (run_typeOf cell)).trans
    (run_forget_of_ok (run_typeOf v))) (fun h => ⟨Request.allows_of_none rfl _, ?_⟩) ?_
  · rw [Ty.element?_eq_some_iff] at h
    exact ⟨b.ir.typeOf v, by simp [Request.binary, Module.typesOf, h], rfl⟩
  · rintro outs - ⟨t, hins, -⟩
    simp only [Request.binary, Module.typesOf, List.map_cons, List.map_nil, List.cons.injEq,
      and_true] at hins
    exact Ty.element?_eq_some_iff.2 (hins.1 ▸ hins.2)

/-- A stack slot is built for any type of content. -/
theorem follows_alloca (elem : Ty) :
    Follows b { kind := .llvm .alloca, attrs := .ofList [(AttrName.elemType, .type elem)] }
      (forget (Build.Llvm.alloca elem)) :=
  .creates [.ptr 0] (Request.allows_of_none rfl _) ⟨⟨elem, rfl⟩, 0, rfl, rfl⟩ (run_forget_value _)

/-- A reading is built behind a pointer. -/
theorem follows_load (ptr : ValueId) (ty : Ty) :
    Follows b (.convert (.llvm .load) ptr ty) (forget (Build.Llvm.load ptr ty)) := by
  refine .of_check [ty] (run_forget_value _) (run_forget_of_ok (run_typeOf ptr))
    (fun h => ⟨(Request.allows_iff_of_some rfl).2 rfl, ?_⟩) ?_
  · obtain ⟨s, hs⟩ := Ty.isPtr_iff.1 h
    exact ⟨s, ty, by simp [Request.convert, Module.typesOf, hs], rfl⟩
  · rintro outs - ⟨s, t, hins, -⟩
    exact Ty.isPtr_iff.2 ⟨s, List.head_eq_of_cons_eq hins⟩

/-- A writing is built behind a pointer. -/
theorem follows_store (v ptr : ValueId) :
    Follows b (.binary (.llvm .store) v ptr) (forget (Build.Llvm.store v ptr)) := by
  refine .of_check [] rfl (run_forget_of_ok (run_typeOf ptr))
    (fun h => ⟨Request.allows_of_none rfl _, ?_⟩) ?_
  · obtain ⟨s, hs⟩ := Ty.isPtr_iff.1 h
    exact ⟨b.ir.typeOf v, s, by simp [Request.binary, Module.typesOf, hs], rfl⟩
  · rintro outs - ⟨t, s, hins, -⟩
    exact Ty.isPtr_iff.2 ⟨s, List.head_eq_of_cons_eq (List.tail_eq_of_cons_eq hins)⟩

/-- A pointer is turned into an integer. -/
theorem follows_ptrToInt (ptr : ValueId) (target : Ty) :
    Follows b (.convert (.llvm .ptrToInt) ptr target)
      (forget (Build.Llvm.ptrToInt ptr target)) := by
  refine .of_check [target] (run_forget_value _) (run_forget_of_ok (run_typeOf ptr))
    (fun h => ⟨(Request.allows_iff_of_some rfl).2 rfl, ?_⟩) ?_
  · rw [Bool.and_eq_true, Ty.isPtr_iff, Ty.isInt_iff] at h
    obtain ⟨⟨s, hs⟩, n, rfl⟩ := h
    exact ⟨s, n, by simp [Request.convert, Module.typesOf, hs], rfl⟩
  · rintro outs hallows ⟨s, n, hins, houts⟩
    obtain rfl := (Request.allows_iff_of_some rfl).1 hallows
    rw [Bool.and_eq_true, Ty.isPtr_iff, Ty.isInt_iff]
    exact ⟨⟨s, List.head_eq_of_cons_eq hins⟩, n, List.head_eq_of_cons_eq houts⟩

/-- An integer is turned into a pointer. -/
theorem follows_intToPtr (v : ValueId) (target : Ty) :
    Follows b (.convert (.llvm .intToPtr) v target) (forget (Build.Llvm.intToPtr v target)) := by
  refine .of_check [target] (run_forget_value _) (run_forget_of_ok (run_typeOf v))
    (fun h => ⟨(Request.allows_iff_of_some rfl).2 rfl, ?_⟩) ?_
  · rw [Bool.and_eq_true, Ty.isInt_iff, Ty.isPtr_iff] at h
    obtain ⟨⟨n, hn⟩, s, rfl⟩ := h
    exact ⟨n, s, by simp [Request.convert, Module.typesOf, hn], rfl⟩
  · rintro outs hallows ⟨n, s, hins, houts⟩
    obtain rfl := (Request.allows_iff_of_some rfl).1 hallows
    rw [Bool.and_eq_true, Ty.isInt_iff, Ty.isPtr_iff]
    exact ⟨⟨n, List.head_eq_of_cons_eq hins⟩, s, List.head_eq_of_cons_eq houts⟩

end Families

/-! ## Agreement -/

/-- **Each step follows the typing rule** of the operation that it is asked for.

**Proof sketch.** One case for each helper, and in each the lemma about its step; the helpers
without a request are excluded by `hq`. -/
theorem follows_of_request {h : Helper} {q : Request} (hq : h.request? = some q) (b : Builder) :
    Follows b q h.step := by
  cases h with
  | constant n ty => cases hq; exact follows_integer (by rfl) n ty
  | llvmConstant n ty => cases hq; exact follows_integer (by rfl) n ty
  | addi | muli | andi => cases hq; exact follows_binary (by rfl)
  | cmpi p | llvmIcmp p => cases hq; exact follows_compare (by rfl) p
  | extsi v target | extui v target => cases hq; exact follows_extend (by rfl) target
  | allocaCell elem => cases hq; exact follows_allocaCell elem
  | loadCell cell => cases hq; exact follows_loadCell cell
  | storeCell v cell => cases hq; exact follows_storeCell v cell
  | llvmAlloca elem => cases hq; exact follows_alloca elem
  | llvmLoad ptr ty => cases hq; exact follows_load ptr ty
  | llvmStore v ptr => cases hq; exact follows_store v ptr
  | llvmPtrToInt ptr target => cases hq; exact follows_ptrToInt ptr target
  | llvmIntToPtr v target => cases hq; exact follows_intToPtr v target
  | llvmBinary kind =>
    cases kind with
    | add | mul | and | lshr => cases hq; exact follows_binary (by rfl)
    | _ => cases hq
  | llvmExtend kind v target =>
    cases kind with
    | sext | zext => cases hq; exact follows_extend (by rfl) target
    | _ => cases hq
  | _ => cases hq

/-- **Builders and the verifier agree, and failed steps change nothing.**  A step that creates a
constant, an arithmetic operation, a cell, an access to memory or a conversion at the insertion
point succeeds if and only if the verifier accepts the operation that the step was asked for, with
the result type that was requested, or with some result types if none was; the operation that the
step creates is such an operation, and the verifier accepts it.  Any step whatsoever that fails
leaves the module, the insertion point and the location as they were.

**Proof sketch.** The step follows the typing rule of the kind (`follows_of_request`), and so does
the verifier (`Module.verifyOp_addOp_iff`).  A step that fails looked at the builder only
(`Helper.clean_step`). -/
theorem Builder.agrees_with_verifier (b : Builder) :
    (∀ (h : Helper) (q : Request) (p : InsertPoint), h.request? = some q → b.point = some p →
      (∀ v ∈ q.operands, b.ir.HasValue v) →
        ((∃ c, h.step.run b = .ok () c) ↔
          ∃ outs, q.Allows outs ∧
            (b.ir.addOp (q.spec outs) b.location p.block p.index).verifyOp ⟨b.ir.ops.size⟩ =
              .ok ()) ∧
        ∀ c, h.step.run b = .ok () c → c.ir.verifyOp ⟨b.ir.ops.size⟩ = .ok () ∧
          c.point = some p.next ∧
            ∃ outs, q.Allows outs ∧
              c.ir = b.ir.addOp (q.spec outs) b.location p.block p.index) ∧
    ∀ (h : Helper) (c : Builder) (e : IrError), h.step.run b = .error e c → c = b := by
  refine ⟨fun h q p hq hp hoperands => ?_, fun h c e hrun => h.clean_step b c e hrun⟩
  have hrule : ∀ outs, (b.ir.addOp (q.spec outs) b.location p.block p.index).verifyOp
      ⟨b.ir.ops.size⟩ = .ok () ↔ q.kind.Accepts q.attrs (b.ir.typesOf q.operands) outs :=
    fun outs => Module.verifyOp_addOp_iff (isTyped_of_request hq) rfl hoperands
  simp only [hrule]
  cases follows_of_request hq b with
  | refuses e hnone hrun =>
    refine ⟨⟨?_, ?_⟩, ?_⟩
    · rintro ⟨c, hc⟩
      rw [hrun] at hc
      cases hc
    · rintro ⟨outs, hallows, haccepts⟩
      exact absurd haccepts (hnone outs hallows)
    · intro c hc
      rw [hrun] at hc
      cases hc
  | creates outs hallows haccepts hrun =>
    have hmade : h.step.run b = .ok () { b with
        ir := b.ir.addOp (q.spec outs) b.location p.block p.index
        point := some p.next } := by
      obtain ⟨ir, point, location⟩ := b
      obtain rfl : point = some p := hp
      exact hrun
    refine ⟨⟨fun _ => ⟨outs, hallows, haccepts⟩, fun _ => ⟨_, hmade⟩⟩, fun c hc => ?_⟩
    rw [hmade] at hc
    cases hc
    exact ⟨(hrule outs).2 haccepts, rfl, outs, hallows, rfl⟩

/-- One constant in the body. -/
def oneConstant : Builder := (Helper.constant 1 .word).run (.new (.new .unknown))

/-- The constant may be added to itself.  It may not be loaded from, whatever the result is to be,
and trying to do so changes nothing. -/
theorem oneConstant_addi_and_load :
    (∃ c, (Helper.addi ⟨0⟩ ⟨0⟩).step.run oneConstant = .ok () c ∧ c.ir.verifyOp ⟨1⟩ = .ok ()) ∧
      (∀ outs, (oneConstant.ir.addOp { kind := .memref .load, operands := [⟨0⟩], results := outs }
        .unknown ⟨0⟩ none).verifyOp ⟨1⟩ ≠ .ok ()) ∧
      ∃ e, (Helper.loadCell ⟨0⟩).step.run oneConstant = .error e oneConstant := by
  obtain ⟨hagree, hfailed⟩ := oneConstant.agrees_with_verifier
  have hload : ∃ c e, (Helper.loadCell ⟨0⟩).step.run oneConstant = .error e c := ⟨_, _, rfl⟩
  obtain ⟨d, e, he⟩ := hload
  have hadd : ∃ c, (Helper.addi ⟨0⟩ ⟨0⟩).step.run oneConstant = .ok () c := ⟨_, rfl⟩
  obtain ⟨c, hc⟩ := hadd
  refine ⟨⟨c, hc, ((hagree (.addi ⟨0⟩ ⟨0⟩) _ _ rfl rfl (by decide)).2 c hc).1⟩, ?_, e, ?_⟩
  · intro outs hverify
    obtain ⟨c', hc'⟩ := (hagree (.loadCell ⟨0⟩) _ _ rfl rfl (by decide)).1.2
      ⟨outs, Request.allows_of_none rfl outs, hverify⟩
    rw [he] at hc'
    cases hc'
  · rw [he, hfailed _ d e he]

end ContractIR
