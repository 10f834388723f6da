import ContractIR.EraVM.Legalize
import ContractIR.Proofs.Legalization.Containers

/-!
# Functions are converted line by line

The patterns of legalization rewrite operations in place.  A line of a function becomes its
low-level form, the function itself a low-level function, and every other rewrite leaves the
function alone.  When the sweeps have come to rest and nothing illegal is left, all lines are
converted.

## Main definitions

* `ContractIR.EraVM.Keeps` — a pattern leaves a function what it is.
* `ContractIR.EraVM.Maintains` — a pattern keeps a property of modules.

## Main results

* `ContractIR.EraVM.keeps_patterns` — every pattern does.
* `ContractIR.EraVM.maintained_of_convert` — what all patterns keep is kept through all sweeps.
* `ContractIR.Hoisted.lowered` — where nothing is illegal, its lines are converted.
-/

set_option autoImplicit false

namespace ContractIR

namespace Hoisted

variable {s : FunctionSite} {m n : Module}

/-- The function persists, and neither blocks nor regions changed. -/
theorem of_persists (h : Hoisted s m) (hp : s.Persists n) (hblocks : n.blocks = m.blocks)
    (hregions : n.regions = m.regions) : Hoisted s n where
  persists := hp
  body := by
    rw [Module.region, hregions]
    exact h.body
  top_lt := by
    rw [hblocks]
    exact h.top_lt
  entry_ne := h.entry_ne
  mem := by
    rw [Module.block, hblocks]
    exact h.mem

/-- The module grows elsewhere. -/
theorem of_extends (h : Hoisted s m) (hext : Module.Extends (· ≠ s.entry) m n) : Hoisted s n where
  persists := h.persists.of_extends hext fun hne => hne rfl
  body := by
    have hlt : Module.body.index < m.regions.size := Module.index_lt_of_region_ne fun hd => by
      have hbody := h.body
      rw [hd] at hbody
      cases congrArg Region.blocks hbody
    rw [hext.regions _ hlt, h.body]
  top_lt := Nat.lt_of_lt_of_le h.top_lt hext.size_blocks
  entry_ne := h.entry_ne
  mem := (hext.grown ⟨0⟩ h.top_lt).2.2.subset h.mem

/-- Another operation is dropped. -/
theorem of_detachOp (h : Hoisted s m) {id : OpId} (hid : id ∉ s.ops) (hne : s.id ≠ id) :
    Hoisted s (m.detachOp id) where
  persists := h.persists.of_detachOp hid
  body := by simpa using h.body
  top_lt := by simpa using h.top_lt
  entry_ne := h.entry_ne
  mem := Module.mem_block_detachOp h.mem hne

/-- What is neither a function nor of the kind of a line is neither the function nor a line. -/
theorem ne_of_kind (h : Hoisted s m) {id : OpId} (hfunc : (m.kind id).isFunction = false) :
    s.id ≠ id := by
  rintro rfl
  rw [h.persists.isFunction] at hfunc
  cases hfunc

end Hoisted

namespace EraVM

open Conversion

/-- A pattern leaves a function what it is, and the module as it is if it does not apply. -/
def Keeps (s : FunctionSite) (p : Pattern) : Prop :=
  ∀ (m n : Module) (id : OpId) (a : Bool), Hoisted s m → m.kind id = p.root →
    (p.rewrite id).run m = .ok a n → Hoisted s n ∧ (a = false → n = m)

variable {s : FunctionSite}

/-! ## Returns and functions -/

/-- A return from contract code stands outside of the function.

**Proof sketch.** A return from contract code is no line of a function, so it and the code in its
place are elsewhere; only its block and the body grow, neither of which is the entry block. -/
theorem keeps_lowerReturnOp (contexts : Contexts) :
    Keeps s ⟨"sol-return", .sol .ret, lowerReturnOp contexts⟩ := by
  intro m n id a h hkind hrun
  have hid : id ∉ s.ops := by
    intro hid
    obtain ⟨next, l, hl, _⟩ := h.persists.exists_line hid
    have hdialect := l.instr.dialect_kind
    rcases hl.kind_eq with hk | hk
    · rw [← hk, hkind] at hdialect
      simp [OpKind.dialect] at hdialect
    · rw [hkind] at hk
      cases hk
  have hne : s.id ≠ id := h.ne_of_kind (by rw [hkind]; rfl)
  have hlt : id.index < m.ops.size := Module.index_lt_of_op_ne fun hd => by
    rw [Module.kind, hd] at hkind
    cases hkind
  have hbody : m.bodyBlock ≠ s.entry := by
    rw [bodyBlock_of_extends (.refl (· ≠ s.entry) m) h.body]
    exact h.entry_ne.symm
  obtain ⟨rfl, p, hext, rfl⟩ := run_lowerReturnOp_eq_ok (B := (· ≠ s.entry)) hlt
    (fun b hb hc => h.persists.isolated.parents id hid (hc ▸ hb)) hbody hrun
  exact ⟨(h.of_extends hext).of_detachOp hid hne, Bool.noConfusion⟩

/-- A function becomes a low-level one; another one becomes what it likes.

**Proof sketch.** A function is none of the lines, and only its kind and its attributes change,
in the way that `Persists` allows; the other outcome changes the kind only. -/
theorem keeps_lowerFuncOp : Keeps s ⟨"func-func", .func .func, lowerFuncOp⟩ := by
  intro m n id a h hkind hrun
  have hid : id ∉ s.ops := h.persists.notMem_ops_of_isSymbol (by rw [hkind]; rfl)
  have hlow : s.Persists (m.setKind id (.llvm .func)) :=
    h.persists.of_modifyOp hid (fun _ => rfl) (fun _ => rfl) (fun _ => rfl)
      (fun _ => .inr rfl) (fun _ => rfl)
  have hrun : (lowerFuncOp id).run m = .ok a n := hrun
  rw [run_lowerFuncOp] at hrun
  split at hrun
  · cases hrun
    refine ⟨h.of_persists ?_ rfl rfl, Bool.noConfusion⟩
    refine hlow.of_modifyOp hid (fun _ => rfl) (fun _ => rfl) (fun _ => rfl) (fun _ => hlow.kind)
      fun o => ?_
    rw [AttrDict.get?_set, if_neg (by decide)]
  · cases hrun
    exact ⟨h.of_persists hlow rfl rfl, Bool.noConfusion⟩

/-! ## Cells -/

/-- Only cells have the kind of cells. -/
theorem eq_alloca_of_kind {i : Instr} (h : i.kind = .memref .alloca) :
    ∃ elem, i = .alloca elem := by
  cases i with
  | alloca elem => exact ⟨elem, rfl⟩
  | arith op => cases op <;> cases h
  | extend signed => cases signed <;> cases h
  | _ => cases h

/-- A cell of a function that becomes a stack slot is the low-level form of the same line.

**Proof sketch.** The line is a cell of the type that was found.  Its operation gets the
low-level kind and the element type, its value the type of a stack slot, and that is the low-level
form. -/
theorem isLowLine_alloca {m : Module} {b : BlockId} {next : Nat} {id : OpId} {l : CodeLine}
    {elem : Ty} {v : ValueId} (h : m.IsLine b next id l) (hkind : m.kind id = .memref .alloca)
    (hv : m.result? id 0 = some v) (helem : (m.typeOf v).element? = some elem) :
    (((m.setType v AddressSpace.stack.ptr).setAttr id AttrName.elemType (.type elem)).setKind id
      (.llvm .alloca)).IsLowLine b next id l := by
  obtain ⟨instr, location⟩ := l
  have hop := h.op
  have hi : instr.kind = .memref .alloca := by
    rw [Module.kind, hop] at hkind
    exact hkind
  obtain ⟨elem', rfl⟩ := eq_alloca_of_kind hi
  obtain ⟨hlt, hvalue⟩ := h.value _ rfl
  obtain rfl : (⟨next⟩ : ValueId) = v := by
    rw [Module.result?, hop] at hv
    exact Option.some.inj hv
  obtain rfl : elem' = elem := by
    rw [Module.typeOf, hvalue] at helem
    exact Option.some.inj helem
  refine ⟨?_, fun ty hty => ?_⟩
  · have hid : id.index < (m.setType ⟨next⟩ AddressSpace.stack.ptr).ops.size := h.index_lt
    simp only [Module.setKind, Module.setAttr]
    rw [Module.op_modifyOp_self _ _ (by simpa using hid), Module.op_modifyOp_self _ _ hid,
      Module.op_setType, hop]
    rfl
  · obtain rfl := Option.some.inj hty
    refine ⟨by simpa [Module.setKind, Module.setAttr] using hlt, ?_⟩
    simp only [Module.setKind, Module.setAttr, Module.value_modifyOp]
    rw [Module.value_setType, if_pos ⟨rfl, hlt⟩, hvalue]

/-- **A cell becomes a stack slot**, in the function or elsewhere.

**Proof sketch.** By whether the cell is a line of the function.  If it is, it becomes the
low-level line (`isLowLine_alloca`), and only its own value changes its type; if not, the change
is elsewhere. -/
theorem keeps_lowerAllocaOp : Keeps s ⟨"memref-alloca", .memref .alloca, lowerAllocaOp⟩ := by
  intro m n id a h hkind hrun
  have hkind : m.kind id = .memref .alloca := hkind
  have hrun : (lowerAllocaOp id).run m = .ok a n := hrun
  rcases run_lowerAllocaOp_eq_ok hrun with ⟨-, rfl, -⟩ | ⟨rfl, v, elem, hv, helem, rfl⟩
  · exact ⟨h, fun _ => rfl⟩
  · refine ⟨h.of_persists ?_ rfl rfl, Bool.noConfusion⟩
    have hmem : v ∈ (m.op id).results := List.mem_of_getElem? hv
    by_cases hid : id ∈ s.ops
    · refine h.persists.of_convert hid (fun next l hl => ?_) (fun j hj => ?_) ?_ rfl rfl
        (fun u hu => ?_) ?_
      · rcases hl with hl | hl
        · exact .inr (isLowLine_alloca hl hkind hv helem)
        · rw [Module.kind, hl.op] at hkind
          cases hkind
      · simp only [Module.setKind, Module.setAttr]
        rw [Module.op_modifyOp_of_ne _ _ hj, Module.op_modifyOp_of_ne _ _ hj, Module.op_setType]
      · simp [Module.setKind, Module.setAttr]
        rfl
      · have hne : u ≠ v := fun hc => hu (hc ▸ hmem)
        simp only [Module.setKind, Module.setAttr, Module.value_modifyOp]
        rw [Module.value_setType, if_neg fun hc => hne hc.1]
      · simp [Module.setKind, Module.setAttr]
    · have hfunc : (m.kind id).isFunction = false := by
        rw [hkind]
        rfl
      have hne : id ≠ s.id := (h.ne_of_kind hfunc).symm
      have htype := h.persists.of_setType hid hmem AddressSpace.stack.ptr
      have hattr := htype.of_modifyOp hid
        (f := fun o => { o with attrs := o.attrs.set AttrName.elemType (.type elem) })
        (fun _ => rfl) (fun _ => rfl) (fun _ => rfl) (fun hc => absurd hc hne) fun o => by
          rw [AttrDict.get?_set, if_neg (by decide)]
      exact hattr.of_modifyOp hid (fun _ => rfl) (fun _ => rfl) (fun _ => rfl)
        (fun hc => absurd hc hne) fun _ => rfl

/-! ## Renames -/

/-- What only changes its kind is neither a function nor a cell nor low-level already. -/
theorem kind_of_mem_renames : ∀ r ∈ renames, r.2.1.isFunction = false ∧
    r.2.1 ≠ .memref .alloca ∧ r.2.1.dialect ≠ .llvm := by
  decide

/-- Lines that only change their kind get the kind of their low-level form.

**Proof sketch.** One case for each instruction: the table has one entry for a kind, which is the
one of the instruction. -/
theorem lowKind_of_mem_renames {r : String × OpKind × LlvmOp} (hr : r ∈ renames) {i : Instr}
    (hi : i.kind = r.2.1) : i.lowKind = r.2.2 := by
  have hunique : ∀ r ∈ renames, ∀ t ∈ renames, t.2.1 = r.2.1 → t.2.2 = r.2.2 := by decide
  cases i with
  | constant n ty =>
    exact hunique r hr ("arith-constant", .arith .constant, .constant) (by decide) hi
  | arith op lhs rhs ty =>
    cases op with
    | add => exact hunique r hr ("arith-addi", .arith .addi, .add) (by decide) hi
    | mul => exact hunique r hr ("arith-muli", .arith .muli, .mul) (by decide) hi
  | extend signed v ty =>
    cases signed with
    | true => exact hunique r hr ("arith-extsi", .arith .extsi, .sext) (by decide) hi
    | false => exact hunique r hr ("arith-extui", .arith .extui, .zext) (by decide) hi
  | alloca elem => exact absurd hi.symm (kind_of_mem_renames r hr).2.1
  | load cell ty => exact hunique r hr ("memref-load", .memref .load, .load) (by decide) hi
  | store v cell => exact hunique r hr ("memref-store", .memref .store, .store) (by decide) hi
  | ret values => exact hunique r hr ("func-return", .func .ret, .ret) (by decide) hi

/-- Where a line is no cell, its low-level form has the same attributes and the same result. -/
theorem low_eq_of_kind {i : Instr} (h : i.kind ≠ .memref .alloca) :
    i.lowAttrs = i.attrs ∧ i.lowResult? = i.result? := by
  cases i with
  | alloca elem => exact absurd rfl h
  | _ => exact ⟨rfl, rfl⟩

/-- A line that only changes its kind is the low-level form of the same line. -/
theorem isLowLine_rename {m : Module} {b : BlockId} {next : Nat} {id : OpId} {l : CodeLine}
    {r : String × OpKind × LlvmOp} (hr : r ∈ renames) (h : m.IsLine b next id l)
    (hkind : m.kind id = r.2.1) : (m.setKind id (.llvm r.2.2)).IsLowLine b next id l := by
  have hi : l.instr.kind = r.2.1 := by
    rw [Module.kind, h.op] at hkind
    exact hkind
  obtain ⟨hattrs, hresult⟩ := low_eq_of_kind (i := l.instr)
    (by rw [hi]; exact (kind_of_mem_renames r hr).2.1)
  refine ⟨?_, fun ty hty => ?_⟩
  · rw [Module.setKind, Module.op_modifyOp_self _ _ h.index_lt, h.op, CodeLine.toLowOp, hattrs,
      lowKind_of_mem_renames hr hi]
    rfl
  · exact h.value ty (hresult ▸ hty)

/-- **Changing a kind** converts a line of the function, or something elsewhere.

**Proof sketch.** By whether the operation is a line of the function.  If it is, it is a
high-level line of that kind and becomes its low-level form (`isLowLine_rename`); if not, the
change is elsewhere. -/
theorem keeps_renamePattern {r : String × OpKind × LlvmOp} (hr : r ∈ renames) :
    Keeps s (renamePattern r.1 r.2.1 r.2.2) := by
  intro m n id a h hkind hrun
  have hkind : m.kind id = r.2.1 := hkind
  obtain ⟨hfunc, _, hdialect⟩ := kind_of_mem_renames r hr
  cases hrun
  refine ⟨h.of_persists ?_ rfl rfl, Bool.noConfusion⟩
  by_cases hid : id ∈ s.ops
  · refine h.persists.of_convert hid (fun next l hl => ?_) (fun j hj => ?_) ?_ rfl rfl
      (fun _ _ => rfl) (Nat.le_refl _)
    · rcases hl with hl | hl
      · exact .inr (isLowLine_rename hr hl hkind)
      · rw [Module.kind, hl.op] at hkind
        exact absurd (congrArg OpKind.dialect hkind).symm hdialect
    · exact Module.op_modifyOp_of_ne _ _ hj
    · exact (Module.size_ops_modifyOp ..).symm
  · have hne : id ≠ s.id := (h.ne_of_kind (by rw [hkind]; exact hfunc)).symm
    exact h.persists.of_modifyOp hid (fun _ => rfl) (fun _ => rfl) (fun _ => rfl)
      (fun hc => absurd hc hne) fun _ => rfl

/-- **Every pattern leaves the functions of a module what they are.** -/
theorem keeps_patterns (contexts : Contexts) : ∀ p ∈ patterns contexts, Keeps s p := by
  intro p hp
  rcases mem_patterns.1 hp with rfl | rfl | rfl | ⟨r, hr, rfl⟩
  · exact keeps_lowerReturnOp contexts
  · exact keeps_lowerFuncOp
  · exact keeps_lowerAllocaOp
  · exact keeps_renamePattern hr

/-! ## Sweeps -/

/-- A pattern that is tried on an operation of the tree keeps a property of modules, and the module
as it is if it does not apply. -/
def Maintains (I : Module → Prop) (p : Pattern) : Prop :=
  ∀ (m n : Module) (id : OpId) (a : Bool), I m → m.isAttached id = true → m.kind id = p.root →
    (p.rewrite id).run m = .ok a n → I n ∧ (a = false → n = m)

section Sweeps

variable {I : Module → Prop} {ps : List Pattern} {m n : Module}

/-- Trying patterns on an operation.

**Proof sketch.** Induction on the patterns: one that declines leaves the module, and the first
one that does not maintains the invariant. -/
theorem maintained_of_firstMatch (hps : ∀ p ∈ ps, Maintains I p) {id : OpId} {a : Option String}
    (h : I m) (hid : m.isAttached id = true)
    (hrun : (firstMatch (m.kind id) id ps).run m = .ok a n) : I n := by
  induction ps with
  | nil =>
    cases hrun
    exact h
  | cons p ps ih =>
    have hrest := ih (fun q hq => hps q (by simp [hq]))
    rw [firstMatch] at hrun
    split at hrun
    · rename_i hroot
      obtain ⟨b, q, hrewrite, hnext⟩ := Outcome.run_bind_eq_ok.1 hrun
      obtain ⟨hq, hsame⟩ := hps p (by simp) m q id b h hid hroot.symm hrewrite
      split at hnext
      · cases hnext
        exact hq
      · rename_i hb
        obtain rfl := hsame (by simpa using hb)
        exact hrest hnext
    · exact hrest hrun

/-- One sweep. -/
theorem maintained_of_sweep (hps : ∀ p ∈ ps, Maintains I p) {target : Conversion.Target}
    {ids : List OpId} {stats : Stats} {changed : Bool} {a : Stats × Bool} (h : I m)
    (hrun : (sweep target ps ids stats changed).run m = .ok a n) : I n := by
  induction ids generalizing m stats changed with
  | nil =>
    cases hrun
    exact h
  | cons id ids ih =>
    rw [sweep, Outcome.run_get_bind] at hrun
    split at hrun
    · rename_i htried
      obtain ⟨name, q, hmatch, hnext⟩ := Outcome.run_bind_eq_ok.1 hrun
      have hq := maintained_of_firstMatch hps h ((Bool.and_eq_true _ _ ▸ htried).1) hmatch
      split at hnext
      · exact ih hq hnext
      · exact ih hq hnext
    · exact ih h hrun

/-- All sweeps. -/
theorem maintained_of_sweepUntilRest (hps : ∀ p ∈ ps, Maintains I p) {target : Conversion.Target}
    {left : Nat} {stats a : Stats} (h : I m)
    (hrun : (sweepUntilRest target ps left stats).run m = .ok a n) : I n := by
  induction left generalizing m stats with
  | zero => cases hrun
  | succ left ih =>
    rw [sweepUntilRest, Outcome.run_get_bind] at hrun
    obtain ⟨⟨stats', changed⟩, q, hsweep, hnext⟩ := Outcome.run_bind_eq_ok.1 hrun
    have hq := maintained_of_sweep hps h hsweep
    dsimp only at hnext
    split at hnext
    · exact ih hq hnext
    · cases hnext
      exact hq

/-- **A conversion that succeeds keeps what its patterns keep**, and leaves nothing illegal. -/
theorem maintained_of_convert (hps : ∀ p ∈ ps, Maintains I p) {target : Conversion.Target}
    {stats : Stats} (h : I m) (hrun : (convert target ps).run m = .ok stats n) :
    I n ∧ target.illegalOps n = [] := by
  rw [convert] at hrun
  obtain ⟨stats', q, hsweeps, hnext⟩ := Outcome.run_bind_eq_ok.1 hrun
  have hq := maintained_of_sweepUntilRest hps h hsweeps
  rw [Outcome.run_get_bind] at hnext
  split at hnext
  · rename_i hlegal
    cases hnext
    exact ⟨hq, hlegal⟩
  · cases hnext

/-- A conversion that succeeds leaves a function what it is, and nothing illegal. -/
theorem hoisted_of_convert (hps : ∀ p ∈ ps, Keeps s p) {target : Conversion.Target} {stats : Stats}
    (h : Hoisted s m) (hrun : (convert target ps).run m = .ok stats n) :
    Hoisted s n ∧ target.illegalOps n = [] :=
  maintained_of_convert (fun p hp m n id a h _ => hps p hp m n id a h) h hrun

end Sweeps

/-! ## At rest -/

end EraVM

/-- The function and its lines are found by walking the module. -/
theorem Hoisted.mem_walk {s : FunctionSite} {m : Module} (h : Hoisted s m) {id : OpId}
    (hid : id = s.id ∨ id ∈ s.ops) : id ∈ m.walk := by
  have hsize : m.ops.size = m.ops.size - 1 + 1 := by
    have := h.persists.id_lt
    omega
  simp only [Module.walk, Module.depthBound, Module.walkRegion, h.body, List.flatMap_cons,
    List.flatMap_nil, List.append_nil, List.mem_flatMap, List.mem_cons]
  refine ⟨s.id, h.mem, ?_⟩
  rcases hid with rfl | hid
  · exact .inl rfl
  · refine .inr ⟨s.region, by simp [h.persists.regions], ?_⟩
    rw [hsize]
    simp only [Module.walkRegion, h.persists.region, List.flatMap_cons, List.flatMap_nil,
      List.append_nil, List.mem_flatMap, List.mem_cons, h.persists.block]
    exact ⟨id, hid, .inl rfl⟩

/-- **Where nothing is illegal, the function and all its lines are converted.**

**Proof sketch.** The function and its lines are in the walk, so all of them are low-level.  A
line is high-level or low-level, and a high-level one is of another dialect. -/
theorem Hoisted.lowered {s : FunctionSite} {m : Module} (h : Hoisted s m)
    (hlegal : EraVM.lowLevelTarget.illegalOps m = []) :
    m.kind s.id = .llvm .func ∧ AlongCode (m.IsLowLine s.entry) s.next s.ops s.code.code := by
  have hdialect : ∀ id, id = s.id ∨ id ∈ s.ops → (m.kind id).dialect = .llvm := by
    intro id hid
    have hnot := List.filter_eq_nil_iff.1 hlegal id (h.mem_walk hid)
    simpa [EraVM.lowLevelTarget, Conversion.Target.allowDialect, Conversion.Target.isLegal]
      using hnot
  refine ⟨?_, h.persists.body.imp fun next id l hid hl => ?_⟩
  · rcases h.persists.kind with hk | hk
    · have hself := hdialect s.id (.inl rfl)
      rw [hk] at hself
      cases hself
    · exact hk
  · rcases hl with hl | hl
    · have hline := hdialect id (.inr hid)
      rw [Module.kind, hl.op] at hline
      have hthree := l.instr.dialect_kind
      rw [show l.instr.kind.dialect = .llvm from hline] at hthree
      simp at hthree
    · exact hl

end ContractIR
