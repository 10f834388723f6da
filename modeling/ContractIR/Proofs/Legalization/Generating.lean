import ContractIR.Proofs.Legalization.EntryFunction
import ContractIR.Proofs.Legalization.Reworking

/-!
# What legalization generates, and where

Symbols are declared at the start of the body, and functions are appended to its end.  What they are
and where they stand is said here of every module whose links agree, with no assumption on what it
holds.

## Main definitions

* `ContractIR.EraVM.IsGlobal`, `IsReturnDeclaration`, `IsRoutineFunction` — what is generated.
* `ContractIR.EraVM.SymbolsDeclared`, `RoutineMade`, `Terminated` — what the steps make of a module.

## Main results

* `ContractIR.EraVM.symbolsDeclared_of_run` — the symbols of the ABI.
* `ContractIR.EraVM.routineMade_of_run` — the functions for the code of containers.
* `ContractIR.EraVM.terminated_of_run` — ends of functions.
-/

set_option autoImplicit false

namespace ContractIR.EraVM

open ContractIR.Module (Extends OpSpec)

variable {m n : Module}

/-! ## What is generated -/

/-- The attributes of a global of the ABI. -/
def Global.attrs (g : Global) : AttrDict :=
  .ofList
    ([(AttrName.symName, .str g.name), (AttrName.globalType, .type g.ty),
        (AttrName.linkage, .str "private")] ++
      (g.initial?.map fun a => (AttrName.value, a)).toList)

/-- An operation declares a global of the ABI. -/
def IsGlobal (m : Module) (o : OpId) (g : Global) : Prop :=
  m.kind o = .llvm .global ∧ (m.op o).attrs = g.attrs

/-- An operation declares the return function. -/
def IsReturnDeclaration (m : Module) (o : OpId) : Prop :=
  m.kind o = .llvm .func ∧
    (m.op o).attrs = (functionSpec returnName returnSignature "external").attrs

/-- An operation is a function for the code of a context. -/
def IsRoutineFunction (m : Module) (name : String) (context : CodeContext) (o : OpId) : Prop :=
  m.kind o = .llvm .func ∧ (m.op o).attrs =
    (functionSpec name ⟨[], []⟩ "private").attrs.set AttrName.isRuntime
      (.bool (decide (context = .runtime)))

/-- A global of the ABI declares its name. -/
theorem IsGlobal.symName? {g : Global} {o : OpId} (h : IsGlobal m o g) :
    m.symName? o = some g.name := by
  rw [Module.symName?, Module.attr?, h.2]
  cases g <;> rfl

/-- A global of the ABI has its type. -/
theorem IsGlobal.globalType {g : Global} {o : OpId} (h : IsGlobal m o g) :
    m.attr? o AttrName.globalType = some (.type g.ty) := by
  rw [Module.attr?, h.2]
  cases g <;> rfl

/-- The declaration of the function that returns declares its name. -/
theorem IsReturnDeclaration.symName? {o : OpId} (h : IsReturnDeclaration m o) :
    m.symName? o = some returnName := by
  rw [Module.symName?, Module.attr?, h.2]
  rfl

/-- A function for code declares its name. -/
theorem IsRoutineFunction.symName? {name : String} {context : CodeContext} {o : OpId}
    (h : IsRoutineFunction m name context o) : m.symName? o = some name := by
  rw [Module.symName?, Module.attr?, h.2, AttrDict.get?_set, if_neg (by decide)]
  rfl

section Congr

variable {o : OpId}

/-- A global of the ABI stays one while it is what it was. -/
theorem IsGlobal.congr {g : Global} (h : IsGlobal m o g) (ho : m.SameOp n o) : IsGlobal n o g := by
  obtain ⟨b, hb⟩ := ho
  rw [IsGlobal, Module.kind, hb]
  exact h

/-- The declaration stays one while it is what it was. -/
theorem IsReturnDeclaration.congr (h : IsReturnDeclaration m o) (ho : m.SameOp n o) :
    IsReturnDeclaration n o := by
  obtain ⟨b, hb⟩ := ho
  rw [IsReturnDeclaration, Module.kind, hb]
  exact h

/-- A function for code stays one while it is what it was. -/
theorem IsRoutineFunction.congr {name : String} {context : CodeContext}
    (h : IsRoutineFunction m name context o) (ho : m.SameOp n o) :
    IsRoutineFunction n name context o := by
  obtain ⟨b, hb⟩ := ho
  rw [IsRoutineFunction, Module.kind, hb]
  exact h

end Congr

/-! ## Symbols of the ABI -/

section Declarations

variable {b : Builder} {x : BlockId}

/-- Some globals of a list are declared, in order.

**Proof sketch.** Induction on the globals: one that is declared is skipped, any other is written
and stands in front of the rest. -/
theorem inserts_declareGlobals (gs : List Global) :
    Inserts x (declareGlobals gs) b fun _ c code => ∃ declared, declared.Sublist gs ∧
      List.Forall₂ (IsGlobal c.ir) code declared := by
  induction gs generalizing b with
  | nil => exact .pure ⟨[], .slnil, .nil⟩
  | cons g gs ih =>
    have hread : ∀ (a : Module) (c : Builder), Build.ir.run b = .ok a c → c = b := by
      intro a c h
      cases h
      rfl
    refine .read_bind hread fun a _ => ?_
    split
    · refine Inserts.bind (inserts_op _ (by simp)) fun id c code hcode hid => ?_
      obtain ⟨rfl, hmade⟩ := hid
      refine Inserts.weaken ih fun _ d new hnew hdeclared => ?_
      obtain ⟨declared, hsublist, hglobals⟩ := hdeclared
      refine ⟨g :: declared, hsublist.cons_cons g, .cons ?_ hglobals⟩
      rw [IsGlobal, Module.kind, hcode.op_eq hnew (by simp), hmade.op]
      exact ⟨rfl, rfl⟩
    · refine Inserts.weaken ih fun _ d new _ hdeclared => ?_
      obtain ⟨declared, hsublist, hglobals⟩ := hdeclared
      exact ⟨declared, hsublist.cons g, hglobals⟩

/-- The return function is declared. -/
theorem inserts_returnDeclaration :
    Inserts x (Build.Llvm.func returnName returnSignature "external" false) b fun _ c code =>
      ∃ o, code = [o] ∧ IsReturnDeclaration c.ir o := by
  refine Inserts.bind (inserts_op _ (by simp)) fun id c code _ hid => ?_
  obtain ⟨rfl, hmade⟩ := hid
  refine .pure ⟨id, rfl, ?_⟩
  rw [IsReturnDeclaration, Module.kind, hmade.op]
  exact ⟨rfl, rfl⟩

end Declarations

/-- A module grew by symbols of the ABI at the start of its body: by some globals, and maybe by the
declaration of the return function. -/
structure SymbolsDeclared (m n : Module) (globals : List Global) (code rest : List OpId) :
    Prop where
  linked : n.Linked
  grown : Extends (· = m.bodyBlock) m n
  size_blocks : n.blocks.size = m.blocks.size
  listed : (n.block m.bodyBlock).ops = code ++ rest ++ (m.block m.bodyBlock).ops
  new : ∀ o : OpId, o ∈ code ++ rest ↔ m.ops.size ≤ o.index ∧ o.index < n.ops.size
  sublist : globals.Sublist Global.all
  globals : List.Forall₂ (IsGlobal n) code globals
  rest : rest = [] ∨ ∃ o, rest = [o] ∧ IsReturnDeclaration n o

/-- What is declared has no body. -/
theorem SymbolsDeclared.entryBlock?_eq_none {globals : List Global} {code rest : List OpId}
    (h : SymbolsDeclared m n globals code rest) {o : OpId} (ho : o ∈ code ++ rest) :
    n.entryBlock? o = none := by
  refine Option.eq_none_iff_forall_ne_some.2 fun e he => ?_
  obtain ⟨r, hr, hblock⟩ := Option.bind_eq_some_iff.1 he
  have hregion := h.grown.new_regions o ((h.new o).1 ho).1 r (List.mem_of_mem_head? hr)
  have hmem := List.mem_of_mem_head? hblock
  have hlt := h.linked.blocks_lt r e hmem
  rw [h.size_blocks] at hlt
  exact Nat.not_lt.2 (h.grown.new_blocks r hregion e hmem) hlt

/-- **The symbols of the ABI are declared** at the start of the body.

**Proof sketch.** The run is taken apart: the cursor goes to the start of the body, the globals
are written (`inserts_declareGlobals`), and behind them the declaration of the return function or
nothing.  What is new is what was written. -/
theorem symbolsDeclared_of_run (hm : m.Linked) (hbody : m.bodyBlock.index < m.blocks.size)
    {a : Unit} (h : declareSymbols.run m = .ok a n) :
    ∃ globals code rest, SymbolsDeclared m n globals code rest := by
  rw [declareSymbols, run_build] at h
  split at h
  case h_2 => cases h
  case h_1 d hbuild =>
    cases h
    obtain ⟨m', _, hir, hrest⟩ := Outcome.run_bind_eq_ok.1 hbuild
    cases hir
    obtain ⟨_, _, hstart, hrest⟩ := Outcome.run_bind_eq_ok.1 hrest
    cases hstart
    let b : Builder :=
      { Builder.new m with point := some ⟨m.bodyBlock, some 0⟩, location := m.location }
    have hat : b.At m.bodyBlock [] (m.block m.bodyBlock).ops := ⟨hbody, rfl, _, rfl, .inl rfl⟩
    obtain ⟨_, c, hglobals, hrest⟩ := Outcome.run_bind_eq_ok.1 hrest
    obtain ⟨code, hcode, hc, globals, hsublist, hdeclared⟩ :=
      (inserts_declareGlobals Global.all).liftM [] _ hat _ _ hglobals
    obtain ⟨m', _, hir, hrest⟩ := Outcome.run_bind_eq_ok.1 hrest
    cases hir
    have hdone : ∃ rest, c.Wrote m.bodyBlock d rest ∧
        d.At m.bodyBlock ([] ++ code ++ rest) (m.block m.bodyBlock).ops ∧
        (rest = [] ∨ ∃ o, rest = [o] ∧ IsReturnDeclaration d.ir o) := by
      split at hrest
      · obtain ⟨_, _, hfunc, hpure⟩ := Outcome.run_bind_eq_ok.1 hrest
        cases hpure
        obtain ⟨rest, hwrote, hd, hrest⟩ := inserts_returnDeclaration.liftM _ _ hc _ _ hfunc
        exact ⟨rest, hwrote, hd, .inr hrest⟩
      · cases hrest
        exact ⟨[], .refl _ _, by rwa [List.append_nil], .inl rfl⟩
    obtain ⟨rest, hwrote, hd, hrest⟩ := hdone
    have hall := hcode.trans hwrote
    refine ⟨globals, code, rest, hall.linked hm, hall.extends_ir, hall.size_blocks, ?_, hall.new,
      hsublist, ?_, hrest⟩
    · rw [hd.ops, List.nil_append]
    · have hsame : ∀ o ∈ code, c.ir.SameOp d.ir o := fun o ho => .of_eq (hcode.op_eq hwrote ho)
      exact ((List.forall₂_and_left _ _).2 ⟨hsame, hdeclared⟩).imp fun o g ho => ho.2.congr ho.1

/-! ## Functions for code -/

/-- A module grew by a function for the code of a context, at the end of its body. -/
structure RoutineMade (m n : Module) (name : String) (context : CodeContext) (f : OpId)
    (e : BlockId) : Prop where
  id : f = ⟨m.ops.size⟩
  size_ops : n.ops.size = m.ops.size + 1
  linked : n.Linked
  grown : Extends (· = m.bodyBlock) m n
  listed : (n.block m.bodyBlock).ops = (m.block m.bodyBlock).ops ++ [f]
  function : IsRoutineFunction n name context f
  entry : n.entryBlock? f = some e
  block : (n.block e).ops = []

/-- **The function for the code of a context** was there, or is made.

**Proof sketch.** The function is found, or the run is `withRoutine`, whose lemmas give the
fields; adding the scope and setting the marker keep the links. -/
theorem routineMade_of_run (hm : m.Linked) (hbody : m.bodyBlock.index < m.blocks.size)
    {name : String} {context : CodeContext} {e : BlockId}
    (h : (codeFunction name context).run m = .ok e n) :
    (n = m ∧ ∃ f, m.lookupTop? name = some f ∧ m.entryBlock? f = some e) ∨
      ∃ f, RoutineMade m n name context f e := by
  rcases steps_of_codeFunction h with hfound | ⟨hnone, -⟩
  · exact .inl hfound
  · rw [run_codeFunction_of_none context hnone] at h
    cases h
    let spec := functionSpec name ⟨[], []⟩ "private"
    have hadded := hm.addOp spec m.location (by simp [spec, functionSpec]) hbody none
    have hmade : (m.addScope spec m.location m.bodyBlock []).Linked :=
      hadded.appendBlock (by simp [spec, functionSpec]) _
    refine .inr ⟨⟨m.ops.size⟩, rfl, by simp [withRoutine, Module.setAttr], ?_,
      extends_withRoutine m name context, ops_bodyBlock_withRoutine m name context hbody, ?_,
      entryBlock?_withRoutine m name context, ops_block_withRoutine m name context⟩
    · exact hmade.modifyOp ⟨m.ops.size⟩ (fun _ => rfl) (fun _ => rfl) (fun _ => rfl)
        (hmade.operands_lt _)
    · rw [IsRoutineFunction, Module.kind, op_withRoutine]
      exact ⟨rfl, rfl⟩

/-! ## Ends of functions -/

/-- Returning no data. -/
theorem lays_terminator {b : Builder} {x : BlockId} :
    Lays x (do
      let zero ← Build.constant 0 Ty.word
      let _ ← Build.solReturn zero zero
      return () : Lower Unit) b [.arith .constant, .sol .ret] fun _ _ => True := by
  refine (lays_constant _).liftM.bind fun zero c _ hzero => ?_
  have hreturn : Lays x (Build.solReturn zero zero) c [.sol .ret] fun _ _ => True :=
    .read_bind (run_sameInteger_eq _ _ _) fun _ => lays_op _ (by simp [hzero])
  exact hreturn.liftM.bind fun _ _ _ _ => .pure trivial

/-- A block grew by a return from contract code. -/
structure Terminated (m n : Module) (e : BlockId) : Prop where
  linked : n.Linked
  grown : Extends (· = e) m n
  size_blocks : n.blocks.size = m.blocks.size
  listed : ∃ code, (n.block e).ops = (m.block e).ops ++ code ∧ ∀ o ∈ code, m.ops.size ≤ o.index
  new : ∀ o : OpId, m.ops.size ≤ o.index → o.index < n.ops.size → (n.kind o).isSymbol = false

/-- **A function is ended** where it is entered.

**Proof sketch.** Nothing happens without an entry block or if it is ended.  Otherwise a constant
and a return are written at its end (`lays_terminator`), and neither is a symbol. -/
theorem terminated_of_run (hm : m.Linked) {f : OpId} {a : Unit}
    (h : (terminate f).run m = .ok a n) :
    n = m ∨ ∃ e, m.entryBlock? f = some e ∧ Terminated m n e := by
  rw [terminate, Outcome.run_get_bind] at h
  cases hentry : m.entryBlock? f with
  | none =>
    rw [hentry] at h
    cases h
    exact .inl rfl
  | some e =>
    rw [hentry] at h
    simp only at h
    split at h
    · cases h
      exact .inl rfl
    · rw [run_build] at h
      split at h
      case h_2 => cases h
      case h_1 c hbuild =>
        cases h
        have hat : Builder.At { Builder.atEnd m e with location := (m.op f).location } e
            (m.block e).ops [] :=
          ⟨(Module.owner?_of_entryBlock? hm hentry).1, (List.append_nil _).symm, none, rfl,
            .inr ⟨rfl, rfl⟩⟩
        obtain ⟨code, hcode, hbehind, hkinds, -⟩ := lays_terminator _ _ hat _ _ hbuild
        refine .inr ⟨e, rfl, hcode.linked hm, hcode.extends_ir, hcode.size_blocks,
          ⟨code, hbehind.ops.trans (List.append_nil _), fun o ho => ((hcode.new o).1 ho).1⟩, ?_⟩
        intro o hle hlt
        have hmem : c.ir.kind o ∈ [OpKind.arith .constant, .sol .ret] := by
          rw [← hkinds]
          exact List.mem_map_of_mem ((hcode.new o).2 ⟨hle, hlt⟩)
        revert hmem
        generalize c.ir.kind o = k
        revert k
        decide

end ContractIR.EraVM
