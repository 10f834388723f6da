import ContractIR.Proofs.Legalization.EntryCode
import ContractIR.Proofs.Semantics.Effects

/-!
# What returning from contract code does

A return from runtime code calls the return function with the stretch of memory that is returned, on
the heap.  A return from deploy code writes two words to the auxiliary heap, and calls the return
function with a stretch that begins there and whose length the code computes.  Neither comes back.

## Main definitions

* `ContractIR.EraVM.returnEffects` — what a return from contract code is to do.
* `ContractIR.EraVM.Returns` — code does that, and ends there.
* `ContractIR.EraVM.Performs` — a step writes code that has effects.

## Main results

* `ContractIR.EraVM.inserts_returns` — the code that a return is replaced by does it.
* `ContractIR.EraVM.Returns.congr` — it still does while it is converted.
-/

set_option autoImplicit false

namespace ContractIR.EraVM

open Build
open ContractIR.Module (OpSpec)

/-! ## The effects of returns -/

/-- What a return from contract code does: one from runtime code returns a stretch of the heap, and
one from deploy code the header of the constructor's data, which it writes to the auxiliary heap. -/
def returnEffects (context : CodeContext) (offset length : Datum) : List Effect :=
  match context with
  | .runtime => [.call returnName [offset, length, .number 0]]
  | .deploy =>
    [.store AddressSpace.auxHeap.ptr (.ofInt wordBits 256) (.number 32),
      .store AddressSpace.auxHeap.ptr (.ofInt wordBits 288) (.number 0),
      .call returnName [.number 256, .number 64, .number 2]]

/-- Code returns a stretch of memory from contract code: its last operations are a call and one that
is never reached, and running it up to there has the effects of the return, whatever is known of the
other values. -/
def Returns (m : Module) (context : CodeContext) (offset length : ValueId) (code : List OpId) :
    Prop :=
  ∃ init call stop, code = init ++ [call, stop] ∧ (m.kind call).low = .llvm .call ∧
    (m.kind stop).low = .llvm .unreachable ∧
    ∀ (values : Values) (a l : Datum), values offset = some a → values length = some l →
      ∃ t, perform m (init ++ [call]) values = some (returnEffects context a l, t)

/-- Code goes on to return while it is converted. -/
theorem Returns.congr {m n : Module} {context : CodeContext} {offset length : ValueId}
    {code : List OpId} (h : Returns m context offset length code)
    (hcode : ∀ o ∈ code, ActsLike m n o) : Returns n context offset length code := by
  obtain ⟨init, call, stop, rfl, hcall, hstop, hperform⟩ := h
  refine ⟨init, call, stop, rfl, ?_, ?_, fun values a l ha hl => ?_⟩
  · rw [(hcode call (by simp)).kind, hcall]
  · rw [(hcode stop (by simp)).kind, hstop]
  · rw [perform_congr fun o ho => hcode o ?_]
    · exact hperform values a l ha hl
    · rw [List.mem_append, List.mem_singleton] at ho
      rw [List.mem_append, List.mem_cons]
      exact ho.imp_right .inl

/-! ## Steps -/

variable {x : BlockId} {b c d : Builder} {s t u : Values}

/-- A builder has gone on, and values have become known: old ones are what they were. -/
structure Recalls (b : Builder) (s : Values) (c : Builder) (t : Values) : Prop where
  size_values : b.ir.values.size ≤ c.ir.values.size
  values : ∀ v : ValueId, v.index < b.ir.values.size → t v = s v

/-- One way after another. -/
theorem Recalls.trans (h : Recalls b s c t) (k : Recalls c t d u) : Recalls b s d u where
  size_values := Nat.le_trans h.size_values k.size_values
  values v hv := by rw [k.values v (Nat.lt_of_lt_of_le hv h.size_values), h.values v hv]

/-- A value that the builder made is known to be something. -/
structure Known (b : Builder) (s : Values) (v : ValueId) (datum : Datum) : Prop where
  index_lt : v.index < b.ir.values.size
  value : s v = some datum

/-- What is known stays known. -/
theorem Recalls.known (h : Recalls b s c t) {v : ValueId} {datum : Datum}
    (hv : Known b s v datum) : Known c t v datum :=
  ⟨Nat.lt_of_lt_of_le hv.index_lt h.size_values, by rw [h.values v hv.index_lt, hv.value]⟩

section Steps

variable {α β : Type}

/-- A step writes code that has effects. -/
def Performs (x : BlockId) (y : Build α) (b : Builder) (s : Values) (E : List Effect)
    (Q : α → Builder → Values → Prop) : Prop :=
  Inserts x y b fun a c code =>
    ∃ t, perform c.ir code s = some (E, t) ∧ Recalls b s c t ∧ Q a c t

variable {y : Build α} {f : α → Build β} {Q : α → Builder → Values → Prop}
  {R : β → Builder → Values → Prop} {E F : List Effect}

/-- Code has the same effects while more is written. -/
theorem perform_of_wrote {code more : List OpId} (h : b.Wrote x c code) (k : c.Wrote x d more)
    (s : Values) : perform d.ir code s = perform c.ir code s := by
  refine perform_congr (fun o ho => ?_) s
  have hop := h.op_eq k ho
  refine ⟨by rw [Module.kind, hop]; rfl, by rw [hop], by rw [hop], fun _ _ _ => by rw [hop],
    fun _ v hv => ?_⟩
  rw [Module.typeOf, k.extends_ir.values v (h.results_lt o ho v hv)]
  rfl

/-- Doing nothing has no effect. -/
theorem Performs.pure {a : α} (ha : Q a b s) : Performs x (pure a : Build α) b s [] Q :=
  Inserts.pure ⟨s, rfl, ⟨Nat.le_refl _, fun _ _ => rfl⟩, ha⟩

/-- One step after another. -/
theorem Performs.bind (hy : Performs x y b s E Q)
    (hf : ∀ a c t, Recalls b s c t → Q a c t → Performs x (f a) c t F R) :
    Performs x (y >>= f) b s (E ++ F) R := by
  refine Inserts.bind hy fun a c code hcode hrun => ?_
  obtain ⟨t, ht, hrecalls, ha⟩ := hrun
  refine (hf a c t hrecalls ha).weaken fun a' d more hmore hrest => ?_
  obtain ⟨u, hu, hrecalls', ha'⟩ := hrest
  refine ⟨u, perform_append ?_ hu, hrecalls.trans hrecalls', ha'⟩
  rw [perform_of_wrote hcode hmore, ht]

/-- A step behind steps that only look. -/
theorem Performs.read_bind (hy : ∀ a c, y.run b = .ok a c → c = b)
    (hf : ∀ a, y.run b = .ok a b → Performs x (f a) b s F R) :
    Performs x (y >>= f) b s F R :=
  Inserts.read_bind hy hf

/-- A step behind a check. -/
theorem Performs.ite {p : Prop} [Decidable p] {e : IrError}
    (hy : p → Performs x y b s E Q) : Performs x (if p then y else throw e) b s E Q :=
  Inserts.ite hy

end Steps

/-! ## Operations -/

/-- An operation with one result gives it a value, and has no effect. -/
theorem performs_value (spec : OpSpec) {ty : Ty} (hresults : spec.results = [ty])
    (hoperands : ∀ v ∈ spec.operands, v.index < b.ir.values.size) {datum : Datum}
    (hact : ∀ m id v, Yields m id spec v ty → act m id s = some ([], s.set v datum)) :
    Performs x (Build.value spec) b s [] fun v c t => Known c t v datum := by
  refine (inserts_yields spec hresults hoperands).weaken fun v c code _ hmade => ?_
  obtain ⟨rfl, hsize, id, rfl, hyields⟩ := hmade
  refine ⟨s.set ⟨b.ir.values.size⟩ datum, ?_, ⟨by omega, fun v hv => ?_⟩, by simp [hsize], by simp⟩
  · simp [perform, hact c.ir id _ hyields]
  · refine s.set_of_ne datum fun hv' => ?_
    rw [hv'] at hv
    exact Nat.lt_irrefl _ hv

/-- A word. -/
theorem performs_constant (n : Nat) :
    Performs x (constant (n : Int) Ty.word) b s [] fun v c t => Known c t v (.number n) := by
  refine performs_value _ rfl (by simp) fun m id v hid => ?_
  simp only [act, hid.kind, hid.operands, hid.attrs, hid.results]
  rfl

/-- An operation on two words. -/
theorem performs_binary {kind : OpKind} {op : LlvmOp} (hkind : kind.low = .llvm op)
    {v w : ValueId} {a a' e : Word} (hv : Known b s v (.word a)) (hw : Known b s w (.word a'))
    (he : a.combine op a' = some e) :
    Performs x (binary kind v w) b s [] fun v c t => Known c t v (.word e) := by
  refine .read_bind (run_sameInteger_eq kind v w) fun ty _ => ?_
  refine performs_value _ rfl (by simp [hv.index_lt, hw.index_lt]) fun m id r hid => ?_
  simp only [act, hid.kind, hid.operands, hid.results, hkind]
  simp [hv.value, hw.value, Datum.word?, he]

/-- A pointer to an address. -/
theorem performs_intToPtr {v : ValueId} {address : Word} (hv : Known b s v (.word address))
    (ty : Ty) :
    Performs x (Llvm.intToPtr v ty) b s [] fun v c t => Known c t v (.pointer ty address) := by
  refine .read_bind (run_typeOf_eq v) fun _ _ => .ite fun _ => ?_
  refine performs_value _ rfl (by simp [hv.index_lt]) fun m id r hid => ?_
  simp only [act, hid.kind, hid.operands, hid.results, OpKind.low_llvm]
  simp [hv.value, Datum.word?, hid.type]

/-- Writing behind a pointer. -/
theorem performs_store {v p : ValueId} {content : Datum} {ty : Ty} {address : Word}
    (hv : Known b s v content) (hp : Known b s p (.pointer ty address)) :
    Performs x (Llvm.store v p) b s [.store ty address content] fun _ _ _ => True := by
  refine .read_bind (run_typeOf_eq p) fun _ _ => .ite fun _ => ?_
  refine (inserts_op _ (by simp [hv.index_lt, hp.index_lt])).weaken fun id c code hcode hmade => ?_
  obtain ⟨rfl, hmade⟩ := hmade
  refine ⟨s, ?_, ⟨hcode.extends_ir.size_values, fun _ _ => rfl⟩, trivial⟩
  simp [perform, act, hmade.op, OpSpec.toOp, hv.value, hp.value, Datum.pointer?]

/-! ## Sequences -/

/-- Writing a word to the auxiliary heap. -/
theorem performs_storeAux (offset word : Nat) :
    Performs x (storeAux offset word) b s
      [.store AddressSpace.auxHeap.ptr (.ofInt wordBits offset) (.number word)]
      fun _ _ _ => True := by
  refine .bind (E := []) (performs_constant offset) fun address c₁ t₁ _ haddress => ?_
  refine .bind (E := []) (performs_intToPtr haddress _) fun pointer c₂ t₂ _ hpointer => ?_
  refine .bind (E := []) (performs_constant word) fun content c₃ t₃ h₃ hcontent => ?_
  exact .bind (F := []) (performs_store hcontent (h₃.known hpointer)) fun _ _ _ _ _ =>
    .pure trivial

/-- The length of what a constructor returns. -/
theorem performs_returnedLength :
    Performs x returnedLength b s [] fun v c t => Known c t v (.number 64) := by
  refine .bind (E := []) (performs_constant _) fun size c₁ t₁ _ hsize => ?_
  refine .bind (E := []) (performs_constant 2) fun two c₂ t₂ h₂ htwo => ?_
  refine .bind (E := []) (performs_binary rfl (h₂.known hsize) htwo
    (e := .ofInt wordBits 0) (by decide)) fun doubled c₃ t₃ _ hdoubled => ?_
  refine .bind (E := []) (performs_constant _) fun header c₄ t₄ h₄ hheader => ?_
  exact performs_binary rfl (h₄.known hdoubled) hheader (by decide)

/-- A step writes code that has effects, the last of which is a call. -/
def PerformsCall {α : Type} (x : BlockId) (y : Build α) (b : Builder) (s : Values)
    (E : List Effect) : Prop :=
  Inserts x y b fun _ c code => ∃ init call t, code = init ++ [call] ∧
    (c.ir.kind call).low = .llvm .call ∧ perform c.ir code s = some (E, t)

/-- A step, and then one that ends with a call. -/
theorem PerformsCall.behind {α β : Type} {y : Build α} {f : α → Build β}
    {Q : α → Builder → Values → Prop} {E F : List Effect}
    (hy : Performs x y b s E Q)
    (hf : ∀ a c t, Recalls b s c t → Q a c t → PerformsCall x (f a) c t F) :
    PerformsCall x (y >>= f) b s (E ++ F) := by
  refine Inserts.bind hy fun a c code hcode hrun => ?_
  obtain ⟨t, ht, hrecalls, ha⟩ := hrun
  refine (hf a c t hrecalls ha).weaken fun _ d more hmore hrest => ?_
  obtain ⟨init, call, u, rfl, hcall, hu⟩ := hrest
  refine ⟨code ++ init, call, u, by simp, hcall, perform_append ?_ hu⟩
  rw [perform_of_wrote hcode hmore, ht]

/-- Calling the return function. -/
theorem performsCall_funcCall {offset length mode : ValueId} {a l k : Datum}
    (ho : Known b s offset a) (hl : Known b s length l) (hm : Known b s mode k) :
    PerformsCall x (do let _ ← funcCall returnName [offset, length, mode] []) b s
      [.call returnName [a, l, k]] := by
  have hoperands : ∀ v ∈ [offset, length, mode], v.index < b.ir.values.size := by
    simp [ho.index_lt, hl.index_lt, hm.index_lt]
  refine Inserts.bind (inserts_op _ hoperands) fun call c code _ hmade => Inserts.pure ?_
  obtain ⟨rfl, hmade⟩ := hmade
  refine ⟨[], call, s, rfl, by rw [Module.kind, hmade.op]; rfl, ?_⟩
  have hcallee : ((AttrDict.ofList [(AttrName.callee, Attr.symbol returnName)]).get?
      AttrName.callee).bind Attr.symbol? = some returnName := rfl
  simp [perform, act, hmade.op, OpSpec.toOp, OpKind.low, hcallee, ho.value, hl.value, hm.value]

/-- What a return from contract code is replaced by, up to the end of its block. -/
def returnBuild (context : CodeContext) (offset length : ValueId) : Build Unit :=
  match context with
  | .runtime => runtimeReturn offset length
  | .deploy => deployReturn

/-- **Returning from code of either context.** -/
theorem performsCall_returnBuild (context : CodeContext) {offset length : ValueId} {a l : Datum}
    (ho : Known b s offset a) (hl : Known b s length l) :
    PerformsCall x (returnBuild context offset length) b s (returnEffects context a l) := by
  cases context with
  | runtime =>
    refine .behind (E := []) (performs_constant _) fun mode c t h hmode => ?_
    exact performsCall_funcCall (h.known ho) (h.known hl) hmode
  | deploy =>
    refine .behind (performs_storeAux 256 32) fun _ c₁ t₁ _ _ => ?_
    refine .behind (performs_storeAux 288 0) fun _ c₂ t₂ _ _ => ?_
    refine .behind (E := []) performs_returnedLength fun length c₃ t₃ _ hlength => ?_
    refine .behind (E := []) (performs_constant 256) fun offset c₄ t₄ h₄ hoffset => ?_
    refine .behind (E := []) (performs_constant 2) fun mode c₅ t₅ h₅ hmode => ?_
    exact performsCall_funcCall (h₅.known hoffset) (h₅.known (h₄.known hlength)) hmode

/-- The code that a return is replaced by has the effects of the return if the values of the stretch
are known. -/
theorem inserts_returnBuild_of_known (context : CodeContext) {offset length : ValueId} {a l : Datum}
    (ho : Known b s offset a) (hl : Known b s length l) :
    Inserts x (do
      returnBuild context offset length
      let _ ← Llvm.unreachable) b fun _ c code => ∃ init call stop t,
        code = init ++ [call, stop] ∧ (c.ir.kind call).low = .llvm .call ∧
          (c.ir.kind stop).low = .llvm .unreachable ∧
          perform c.ir (init ++ [call]) s = some (returnEffects context a l, t) := by
  refine Inserts.bind (performsCall_returnBuild context ho hl) fun _ c code hcode hcall => ?_
  obtain ⟨init, call, t, rfl, hcall, hperform⟩ := hcall
  refine Inserts.bind (inserts_op _ (by simp)) fun stop d more hmore hstop => Inserts.pure ?_
  obtain ⟨rfl, hmade⟩ := hstop
  refine ⟨init, call, stop, t, by simp, ?_, by rw [Module.kind, hmade.op]; rfl, ?_⟩
  · rw [Module.kind, hcode.op_eq hmore (by simp)]
    exact hcall
  · rw [perform_of_wrote hcode hmore, hperform]

/-- **The code that a return is replaced by returns.** -/
theorem inserts_returns (context : CodeContext) {offset length : ValueId}
    (ho : offset.index < b.ir.values.size) (hl : length.index < b.ir.values.size) :
    Inserts x (do
      returnBuild context offset length
      let _ ← Llvm.unreachable) b fun _ c code => Returns c.ir context offset length code := by
  let Case := { p : Values × Datum × Datum // p.1 offset = some p.2.1 ∧ p.1 length = some p.2.2 }
  let first : Case := ⟨(fun _ => some (.number 0), .number 0, .number 0), rfl, rfl⟩
  have : Nonempty Case := ⟨first⟩
  refine (Inserts.forall_of_forall fun p : Case =>
    inserts_returnBuild_of_known (x := x) (s := p.1.1)
      context ⟨ho, p.2.1⟩ ⟨hl, p.2.2⟩).weaken fun _ c code _ hcode => ?_
  obtain ⟨init, call, stop, -, rfl, hcall, hstop, -⟩ := hcode first
  refine ⟨init, call, stop, rfl, hcall, hstop, fun values a l ha hl => ?_⟩
  obtain ⟨init', call', stop', t, hsame, -, -, hperform⟩ := hcode ⟨(values, a, l), ha, hl⟩
  obtain ⟨rfl, hlast⟩ := List.append_inj' hsame rfl
  cases hlast
  exact ⟨t, hperform⟩

end ContractIR.EraVM
