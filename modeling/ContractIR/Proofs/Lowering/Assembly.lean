import ContractIR.Lowering.Contract
import ContractIR.Proofs.Lowering.Emission

/-!
# How lowered modules are put together

Lowering adds to a module one contract after the other, to a contract one function after the other,
and to a function the lines of its code.  Here these additions are functions on modules, and the
steps of the lowering are shown to make them.

## Main definitions

* `ContractIR.Module.addScope` — an operation with one region and one empty block in it.
* `ContractIR.Module.addFunction` — a function with its code, at the end of a block.
* `ContractIR.addFunctions`, `ContractIR.addContract`, `ContractIR.addContracts` — the additions for
  lists of functions and contracts, which may fail.

## Main results

* `ContractIR.functionLowered` — lowering a function adds it.
* `ContractIR.lowerContracts_eq` — lowering contracts adds them to a new module and verifies it.
-/

set_option autoImplicit false

namespace ContractIR

/-! ## Parameters and statements -/

section Body

variable {b : Builder} {block : BlockId}

/-- Storing arguments in cells writes two lines for each of them.

**Proof sketch.** Induction on the parameters.  The cell is created at the next number and the
argument is stored in it; two lines later the arguments are still known, and the rest of the list
goes on with the cell bound. -/
theorem emits_spill (params : List (Parameter × ValueId × Ty × Location)) {Γ : Context}
    (hp : b.point = some ⟨block, none⟩) (hΓ : b.ir.Knows Γ)
    (hargs : ∀ p arg ty location, (p, arg, ty, location) ∈ params → Γ arg = some ty)
    (cells : Cells) :
    Emits (spill params cells) b block
      (.ok (spillCode b.ir.values.size params, spillCells b.ir.values.size params cells)) := by
  induction params generalizing Γ b cells with
  | nil => exact Emits.pure cells
  | cons p params ih =>
    obtain ⟨p, arg, ty, location⟩ := p
    have harg := hargs p arg ty location (by simp)
    have hΓ' := hΓ.addLine block ⟨.alloca ty, location⟩
    have hle := hΓ.below.le_add (some (.memref ty))
    have hcell := (hΓ' ⟨b.ir.values.size⟩ (.memref ty) (by simp [Instr.result?])).2
    have hΓ'' := hΓ'.addLine block ⟨.store arg ⟨b.ir.values.size⟩, location⟩
    have hsize : ((b.ir.addLine block ⟨.alloca ty, location⟩).addLine block
        ⟨.store arg ⟨b.ir.values.size⟩, location⟩).values.size = b.ir.values.size + 1 := by
      simp [Instr.count, Instr.result?]
    have halloca := run_allocaCell (b := { b with location := location }) hp ty
    have hstore := run_storeCell
      (b := { b with ir := b.ir.addLine block ⟨.alloca ty, location⟩, location := location }) hp
      hcell (hΓ' _ _ (hle _ _ harg)).2
    have hrest := ih (b := { b with
      ir := (b.ir.addLine block ⟨.alloca ty, location⟩).addLine block
        ⟨.store arg ⟨b.ir.values.size⟩, location⟩, location := location }) hp hΓ''
      (fun q arg' ty' location' hq =>
        hle _ _ (hargs q arg' ty' location' (List.mem_cons_of_mem _ hq)))
      (cells.bind p.declaration ⟨⟨b.ir.values.size⟩, p.ty⟩)
    obtain ⟨place, hrest⟩ := hrest
    refine ⟨place, ?_⟩
    simp only [hsize] at hrest
    simp only [spill, EStateM.run_bind, run_liftM]
    rw [show (Build.setLocation location).run b = .ok () { b with location := location } from rfl]
    simp only [halloca, hstore]
    exact hrest

/-- Returning writes the code of the expression, and the return.

**Proof sketch.** By whether the function has a result and the statement an expression.  Where
both are there, the code of the expression is written and then the return, in sequence
(`Emits.seq`). -/
theorem emits_lowerReturn (source : Source) {cells : Cells} {Γ : Context}
    (hp : b.point = some ⟨block, none⟩) (hΓ : b.ir.Knows Γ) (hcells : cells.Typed Γ)
    (name : String) (returns : Option SemanticType) (expression : Option Expression)
    (src : SourceRange) :
    Emits (lowerReturn source cells name returns expression src) b block
      ((returnCode source cells name returns expression src b.location b.ir.values.size).map
        fun code => (code, ())) := by
  cases returns with
  | none =>
    cases expression with
    | none => exact Emits.pure ()
    | some e => exact ⟨b, rfl⟩
  | some ty =>
    cases expression with
    | none => exact ⟨b, rfl⟩
    | some e =>
      have hexpr := emits_lowerExpression source e hp hΓ hcells ty
      have hseq := Emits.seq hexpr
        (f := fun v => do
          let _ ← moveTo source src
          let _ ← (liftM (Build.funcReturn [v]) : Lower OpId)
          Pure.pure ())
        (s := fun _ v => (locate source src).map fun place => ([⟨.ret [v], place⟩], ())) ?_
      · simp only [lowerReturn, returnCode]
        cases hcode : e.code source cells b.ir.values.size ty with
        | error err => simpa only [hcode, Outcome.error_bind, Except.map] using hseq
        | ok q =>
          cases hloc : locate source src with
          | error err =>
            simpa only [hcode, hloc, Outcome.ok_bind, Outcome.error_bind, Except.map] using hseq
          | ok place =>
            simpa only [hcode, hloc, Outcome.ok_bind, pure, Except.pure, Except.map] using hseq
      · intro code v location _
        cases hloc : locate source src with
        | error err => exact ⟨_, by rw [EStateM.run_bind, run_moveTo, hloc]⟩
        | ok place =>
          refine Emits.moved place (by rw [run_moveTo, hloc]) ⟨place, ?_⟩
          have hret := run_op
            (b := { b with ir := b.ir.addLines block code, location := place }) hp (.ret [v])
          simp only [EStateM.run_bind, run_liftM]
          rw [show Build.funcReturn [v] = Build.op (Instr.ret [v]).spec from rfl, hret]
          rfl

/-- Lowering statements writes their code.

**Proof sketch.** Induction on the statements.  A return writes its code and leaves the rest with
the flag set (`Emits.seq`); after a return, and for any other statement, the lowering stops with
an error. -/
theorem emits_lowerStatements (source : Source) {cells : Cells} {Γ : Context}
    (hp : b.point = some ⟨block, none⟩) (hΓ : b.ir.Knows Γ) (hcells : cells.Typed Γ)
    (name : String) (returns : Option SemanticType) (returned : Bool) (body : List Statement) :
    Emits (lowerStatements source cells name returns returned body) b block
      (statementsCode source cells name returns b.ir.values.size returned body) := by
  induction body generalizing Γ b returned with
  | nil => exact Emits.pure returned
  | cons s rest ih =>
    simp only [lowerStatements, statementsCode]
    refine Emits.located source s.src fun location _ => ?_
    cases returned with
    | true => exact ⟨{ b with location := location }, rfl⟩
    | false =>
      simp only [Bool.false_eq_true, ↓reduceIte]
      cases s with
      | ret expression src =>
        have hret := emits_lowerReturn source
          (b := { b with location := location }) hp hΓ hcells name returns expression src
        have hseq := Emits.seq hret
          (f := fun _ => lowerStatements source cells name returns true rest)
          (s := fun code _ => statementsCode source cells name returns
            (b.ir.values.size + codeCount code) true rest) ?_
        · cases hcode : returnCode source cells name returns expression src location
              b.ir.values.size with
          | error e => simpa only [hcode, Outcome.error_bind, Except.map] using hseq
          | ok code => simpa only [hcode, Outcome.ok_bind, Except.map] using hseq
        · intro code _ place _
          have hrest := ih
            (b := { b with ir := b.ir.addLines block code, location := place }) hp
            (hΓ.addLines block code) (hcells.mono (hΓ.below.le_after code)) true
          simpa only [Module.size_values_addLines] using hrest
      | block | expression | variableDeclaration | ifStatement | whileStatement | breakStatement
      | continueStatement => exact ⟨{ b with location := location }, rfl⟩

end Body

/-! ## Scopes -/

namespace Module

/-- Creates an operation at the end of a block, and a block in the first of its regions. -/
def addScope (m : Module) (spec : OpSpec) (location : Location) (b : BlockId)
    (argTypes : List Ty) : Module :=
  ((m.addOp spec location b none).appendBlock ⟨m.regions.size⟩ argTypes).2

section Scope

variable (m : Module) (spec : OpSpec) (location : Location) (b : BlockId) (argTypes : List Ty)

/-- The operation that was added is the only new one. -/
theorem op_addScope (id : OpId) :
    (m.addScope spec location b argTypes).op id =
      if id = ⟨m.ops.size⟩ then spec.toOp location m.values.size m.regions.size (some b)
      else m.op id := by
  rw [addScope, op_appendBlock, op_addOp]

/-- One block is new, and one lists the operation that was added. -/
theorem block_addScope (x : BlockId) :
    (m.addScope spec location b argTypes).block x =
      if x = ⟨m.blocks.size⟩ then
        ⟨(List.range argTypes.length).map fun i => ⟨m.values.size + spec.results.length + i⟩, [],
          ⟨m.regions.size⟩⟩
      else if x = b ∧ b.index < m.blocks.size then
        { m.block x with ops := (m.block x).ops ++ [⟨m.ops.size⟩] }
      else m.block x := by
  rw [addScope, block_appendBlock, block_addOp]
  simp only [size_blocks_addOp, size_values_addOp, placeAt]

/-- The new region lists the new block. -/
theorem region_addScope_new (h : 0 < spec.regions) :
    (m.addScope spec location b argTypes).region ⟨m.regions.size⟩ =
      ⟨[⟨m.blocks.size⟩], some ⟨m.ops.size⟩⟩ := by
  have hnew : (m.addOp spec location b none).region ⟨m.regions.size⟩ = ⟨[], some ⟨m.ops.size⟩⟩ :=
    region_addOp_add m spec location b none h
  have hlt : m.regions.size < (m.addOp spec location b none).regions.size := by
    rw [size_regions_addOp]
    omega
  rw [addScope, region_appendBlock, if_pos ⟨rfl, hlt⟩, hnew, size_blocks_addOp]
  rfl

/-- The arguments of the new block have the types asked for. -/
theorem value_addScope_add (hresults : spec.results = []) {i : Nat} {ty : Ty}
    (h : argTypes[i]? = some ty) :
    (m.addScope spec location b argTypes).value ⟨m.values.size + i⟩ =
      ⟨ty, .arg ⟨m.blocks.size⟩ i⟩ := by
  have hsize : (m.addOp spec location b none).values.size = m.values.size := by simp [hresults]
  have hvalue := value_appendBlock_add (m.addOp spec location b none) ⟨m.regions.size⟩ argTypes h
  rw [hsize, size_blocks_addOp] at hvalue
  exact hvalue

/-- A scope is one operation. -/
@[simp] theorem size_ops_addScope :
    (m.addScope spec location b argTypes).ops.size = m.ops.size + 1 := by
  simp [addScope]

/-- A scope has one block. -/
@[simp] theorem size_blocks_addScope :
    (m.addScope spec location b argTypes).blocks.size = m.blocks.size + 1 := by
  simp [addScope]

/-- A scope has the regions of its operation. -/
@[simp] theorem size_regions_addScope :
    (m.addScope spec location b argTypes).regions.size = m.regions.size + spec.regions := by
  simp [addScope]

/-- A scope has the results of its operation and the arguments of its block. -/
@[simp] theorem size_values_addScope :
    (m.addScope spec location b argTypes).values.size =
      m.values.size + spec.results.length + argTypes.length := by
  simp [addScope]

end Scope

/-- Adding a scope to a block of `B`, or to a new one, extends a module. -/
theorem Extends.addScope {B : BlockId → Prop} {m n : Module} (h : Extends B m n) (spec : OpSpec)
    (location : Location) {b : BlockId} (hb : B b ∨ m.blocks.size ≤ b.index)
    (argTypes : List Ty) : Extends B m (n.addScope spec location b argTypes) :=
  (h.addOp spec location hb none).appendBlock h.size_regions argTypes

/-! ## Functions and contracts -/

/-- What a function is made of. -/
def functionSpec (name : String) (signature : Signature) : OpSpec where
  kind := .func .func
  attrs := .ofList [(AttrName.symName, .str name), (AttrName.functionType, .type signature.toTy)]
  regions := 1

/-- What a contract is made of. -/
def contractSpec (name : String) : OpSpec where
  kind := .sol .contract
  attrs := .ofList [(AttrName.symName, .str name)]
  regions := 1

/-- Adds a function to the end of a block. -/
def addFunction (m : Module) (around : BlockId) (c : FunctionCode) : Module :=
  (m.addScope (functionSpec c.name c.signature) c.location around c.signature.inputs).addLines
    ⟨m.blocks.size⟩ c.code

/-- Adds a contract without functions to the end of the body. -/
def openContract (m : Module) (name : String) (location : Location) : Module :=
  m.addScope (contractSpec name) location ⟨0⟩ []

end Module

/-- Adding a block to the first region of an operation. -/
theorem run_appendBlock {b : Builder} {id : OpId} {r : RegionId}
    (hr : (b.ir.op id).regions[0]? = some r) (argTypes : List Ty) :
    (Build.appendBlock id 0 argTypes).run b =
      .ok ⟨b.ir.blocks.size⟩ { b with ir := (b.ir.appendBlock r argTypes).2 } := by
  simp only [Build.appendBlock, EStateM.run_bind, EStateM.run_get, hr, EStateM.run_set,
    EStateM.run_pure]
  rfl

/-- Creating an operation with a region, and a block there, adds a scope. -/
theorem run_scope {b : Builder} {around : BlockId} (hp : b.point = some ⟨around, none⟩)
    (spec : Module.OpSpec) (hregions : spec.regions = 1) (argTypes : List Ty) :
    (do
      let id ← Build.op spec
      let entry ← Build.appendBlock id 0 argTypes
      return (id, entry) : Build (OpId × BlockId)).run b =
      .ok (⟨b.ir.ops.size⟩, ⟨b.ir.blocks.size⟩)
        { b with ir := b.ir.addScope spec b.location around argTypes } := by
  have hop : (Build.op spec).run b =
      .ok ⟨b.ir.ops.size⟩ { b with ir := b.ir.addOp spec b.location around none } := by
    obtain ⟨ir, point, location⟩ := b
    simp only at hp
    subst hp
    rfl
  have hregion : ((b.ir.addOp spec b.location around none).op ⟨b.ir.ops.size⟩).regions[0]? =
      some ⟨b.ir.regions.size⟩ := by
    rw [Module.op_addOp, if_pos rfl]
    simp [Module.OpSpec.toOp, hregions]
  simp only [EStateM.run_bind, hop, EStateM.run_pure]
  rw [run_appendBlock (b := { b with ir := b.ir.addOp spec b.location around none }) hregion]
  simp only [Module.size_blocks_addOp]
  rfl

/-- The block of a function that was just added takes its inputs. -/
theorem args_addScope_function (m : Module) (name : String) (signature : Signature)
    (location : Location) (around : BlockId) :
    ((m.addScope (Module.functionSpec name signature) location around signature.inputs).block
      ⟨m.blocks.size⟩).args =
        (List.range signature.inputs.length).map fun i => ⟨m.values.size + i⟩ := by
  rw [Module.block_addScope, if_pos rfl]
  rfl

/-- The arguments of a function that was just added are known. -/
theorem knows_addScope_function (m : Module) (name : String) (signature : Signature)
    (location : Location) (around : BlockId) :
    (m.addScope (Module.functionSpec name signature) location around signature.inputs).Knows
      (argContext m.values.size signature.inputs) := by
  intro v ty hv
  unfold argContext at hv
  split at hv
  · rename_i hle
    have hlt := (List.getElem?_eq_some_iff.1 hv).1
    have hvalue := Module.value_addScope_add m (Module.functionSpec name signature) location around
      signature.inputs rfl hv
    rw [show (⟨m.values.size + (v.index - m.values.size)⟩ : ValueId) = v by
      rw [← ValueId.index_eq_iff]; simp only; omega] at hvalue
    refine ⟨?_, by rw [Module.typeOf, hvalue]⟩
    rw [Module.size_values_addScope]
    omega
  · cases hv

/-- The cells and the statements of a function write their code one after the other.

**Proof sketch.** In sequence (`Emits.seq`): the cells by `emits_spill`, the statements by
`emits_lowerStatements`, where the cells are typed after they were filled. -/
theorem emits_body {source : Source} {b : Builder} {entry : BlockId} {f : Function}
    {inputs : List (Ty × Location)} (first : Nat) (hp : b.point = some ⟨entry, none⟩)
    (hΓ : b.ir.Knows (argContext first (inputs.map Prod.fst)))
    (hin : f.parameters.mapM (lowerParameter source) = .ok inputs)
    (hnext : b.ir.values.size = first + inputs.length) (returns : Option SemanticType) :
    Emits (do
      let cells ← spill (f.arguments first inputs) {}
      lowerStatements source cells f.name returns false f.body) b entry (do
        let q ← statementsCode source
          (spillCells (first + inputs.length) (f.arguments first inputs) {}) f.name returns
          (first + inputs.length +
            codeCount (spillCode (first + inputs.length) (f.arguments first inputs))) false f.body
        return (spillCode (first + inputs.length) (f.arguments first inputs) ++ q.1, q.2)) := by
  obtain ⟨_, hcells⟩ := Function.spillCode_typed first [] hin
  have hspill := emits_spill (f.arguments first inputs) hp hΓ
    (fun p arg ty location hmem => by
      obtain ⟨i, _, rfl, hi⟩ := Function.getElem?_of_mem_arguments hmem
      simp [hi]) {}
  rw [hnext] at hspill
  have hseq := Emits.seq hspill
    (f := fun cells => lowerStatements source cells f.name returns false f.body)
    (s := fun code cells => statementsCode source cells f.name returns
      (first + inputs.length + codeCount code) false f.body) ?_
  · exact hseq
  · intro code cells place hcode
    simp only [Except.ok.injEq, Prod.mk.injEq] at hcode
    obtain ⟨rfl, rfl⟩ := hcode
    have hΓ' := hΓ.addLines entry (spillCode (first + inputs.length) (f.arguments first inputs))
    rw [hnext] at hΓ'
    have hstmts := emits_lowerStatements source
      (b := { b with
        ir := b.ir.addLines entry (spillCode (first + inputs.length) (f.arguments first inputs)),
        location := place }) hp hΓ' hcells f.name returns false f.body
    simpa only [Module.size_values_addLines, hnext] using hstmts

/-- The last step of a function: a return if there is no result, and a complaint if a result was
never returned. -/
def finish (source : Source) (f : Function) (function : OpId) (returns : Option SemanticType)
    (returned : Bool) : Lower OpId := do
  match returns with
  | none =>
    let _ ← moveTo source f.src
    let _ ← Build.funcReturn []
    return function
  | some _ =>
    if returned then return function
    else
      let _ ← moveTo source f.src
      unsupportedHere (.missingReturn f.name)

/-- A function without a result ends with a return. -/
theorem run_finish_none {b : Builder} {entry : BlockId} (hp : b.point = some ⟨entry, none⟩)
    {source : Source} {f : Function} {location : Location}
    (hloc : locate source f.src = .ok location) (function : OpId) (returned : Bool) :
    (finish source f function none returned).run b =
      .ok function
        { b with ir := b.ir.addLine entry ⟨.ret [], location⟩, location := location } := by
  have hret := run_op (b := { b with location := location }) hp (.ret [])
  unfold finish
  simp only [EStateM.run_bind, run_moveTo, hloc, run_liftM]
  rw [show Build.funcReturn [] = Build.op (Instr.ret []).spec from rfl, hret]
  rfl

/-- A function with a result that does not return is refused. -/
theorem run_finish_missing {b : Builder} {source : Source} {f : Function} {location : Location}
    (hloc : locate source f.src = .ok location) (function : OpId) (ty : SemanticType) :
    ∃ c, (finish source f function (some ty) false).run b =
      .error (.unsupported (.missingReturn f.name) location) c := by
  refine ⟨{ b with location := location }, ?_⟩
  unfold finish
  simp only [Bool.false_eq_true, ↓reduceIte, EStateM.run_bind, run_moveTo, hloc]
  rfl

/-- Once its types are lowered, a function is added without code, and its body is lowered there. -/
theorem run_lowerFunction_opened {b : Builder} {around : BlockId}
    (hp : b.point = some ⟨around, none⟩) {source : Source} {f : Function} {location : Location}
    {inputs results : List (Ty × Location)} (hloc : locate source f.src = .ok location)
    (hin : f.parameters.mapM (lowerParameter source) = .ok inputs)
    (hout : f.returns.mapM (lowerParameter source) = .ok results) (hmany : ¬1 < f.returns.length) :
    (lowerFunction source f).run b =
      (do
        let cells ← spill (f.arguments b.ir.values.size inputs) {}
        let returned ← lowerStatements source cells f.name (f.returns.head?.map Parameter.ty) false
          f.body
        finish source f ⟨b.ir.ops.size⟩ (f.returns.head?.map Parameter.ty) returned :
          Lower OpId).run
        ⟨b.ir.addScope (Module.functionSpec f.name
          ⟨inputs.map Prod.fst, results.map Prod.fst⟩) location around (inputs.map Prod.fst),
          some ⟨⟨b.ir.blocks.size⟩, none⟩, location⟩ := by
  have hscope := run_scope (b := { b with location := location }) hp
    (Module.functionSpec f.name ⟨inputs.map Prod.fst, results.map Prod.fst⟩) rfl
    (inputs.map Prod.fst)
  have hargs := args_addScope_function b.ir f.name
    ⟨inputs.map Prod.fst, results.map Prod.fst⟩ location around
  have hfunc : (Build.func f.name ⟨inputs.map Prod.fst, results.map Prod.fst⟩).run
      { b with location := location } = _ := hscope
  unfold lowerFunction
  simp only [EStateM.run_bind, run_moveTo, hloc, hin, hout, hmany, Transform.ofExcept,
    EStateM.run_pure, ↓reduceIte, run_liftM, Build.setLocation, EStateM.run_modify, hfunc,
    Build.toEnd, Build.argsOf, Build.ir, EStateM.run_get, hargs, List.length_map]
  rfl

/-- What lowering a function does, given the code of the function. -/
def FunctionLowered (source : Source) (f : Function) (b : Builder) (around : BlockId) :
    Except CompileError FunctionCode → Prop
  | .ok c => ∃ point location, (lowerFunction source f).run b =
      .ok ⟨b.ir.ops.size⟩ ⟨b.ir.addFunction around c, point, location⟩
  | .error e => ∃ c, (lowerFunction source f).run b = .error e c

/-- Once its types are lowered, a function is added, or its body has an error.

**Proof sketch.** In the opened function its arguments are known, so `emits_body` says what
the body writes or how it fails.  Behind it a function without a result gets a return without
values; one with a result has returned, or is refused (`run_finish_missing`). -/
theorem functionLowered_opened {b : Builder} {around : BlockId}
    (hp : b.point = some ⟨around, none⟩) {source : Source} {f : Function} {location : Location}
    {inputs results : List (Ty × Location)} (hloc : locate source f.src = .ok location)
    (hin : f.parameters.mapM (lowerParameter source) = .ok inputs)
    (hout : f.returns.mapM (lowerParameter source) = .ok results) (hmany : ¬1 < f.returns.length) :
    FunctionLowered source f b around (f.code source b.ir.values.size) := by
  have hknows := knows_addScope_function b.ir f.name
    ⟨inputs.map Prod.fst, results.map Prod.fst⟩ location around
  have hbody := emits_body b.ir.values.size
    (b := ⟨b.ir.addScope (Module.functionSpec f.name
      ⟨inputs.map Prod.fst, results.map Prod.fst⟩) location around (inputs.map Prod.fst),
      some ⟨⟨b.ir.blocks.size⟩, none⟩, location⟩) rfl hknows hin
    (by simp [Module.functionSpec]) (f.returns.head?.map Parameter.ty)
  have hopened := run_lowerFunction_opened hp hloc hin hout hmany
  rw [← bind_assoc, EStateM.run_bind] at hopened
  simp only [Function.code, hloc, hin, hout, Outcome.ok_bind, hmany, ↓reduceIte]
  cases hstmts : statementsCode source (spillCells (b.ir.values.size + inputs.length)
      (f.arguments b.ir.values.size inputs) {}) f.name (f.returns.head?.map Parameter.ty)
      (b.ir.values.size + inputs.length + codeCount (spillCode
        (b.ir.values.size + inputs.length) (f.arguments b.ir.values.size inputs))) false
      f.body with
  | error e =>
    rw [hstmts] at hbody
    obtain ⟨c, hbody⟩ := hbody
    exact ⟨c, by rw [hopened, hbody]⟩
  | ok q =>
    rw [hstmts] at hbody
    obtain ⟨place, hbody⟩ := hbody
    rw [hbody] at hopened
    dsimp only at hopened
    simp only [Outcome.ok_bind]
    cases hret : f.returns.head?.map Parameter.ty with
    | none =>
      rw [hret, run_finish_none rfl hloc] at hopened
      refine ⟨some ⟨⟨b.ir.blocks.size⟩, none⟩, location, ?_⟩
      simp only [hopened, Module.addFunction, Module.addLines_append]
      rfl
    | some ty =>
      rw [hret] at hopened
      obtain ⟨body, returned⟩ := q
      cases returned with
      | true => exact ⟨_, _, hopened⟩
      | false =>
        obtain ⟨c, hmissing⟩ := run_finish_missing hloc _ ty
        exact ⟨c, hopened.trans hmissing⟩

/-- Lowering a function adds it, and fails only where its code has an error.

**Proof sketch.** The checks in front of the body one by one: the location, the types of
parameters and results, the number of results.  Each failure is that of the code; behind them is
`functionLowered_opened`. -/
theorem functionLowered {b : Builder} {around : BlockId} (hp : b.point = some ⟨around, none⟩)
    (source : Source) (f : Function) :
    FunctionLowered source f b around (f.code source b.ir.values.size) := by
  cases hloc : locate source f.src with
  | error e =>
    rw [Function.code, hloc]
    exact ⟨b, by rw [lowerFunction, EStateM.run_bind, run_moveTo, hloc]⟩
  | ok location =>
    cases hin : f.parameters.mapM (lowerParameter source) with
    | error e =>
      rw [Function.code, hloc, hin]
      refine ⟨{ b with location := location }, ?_⟩
      rw [lowerFunction, EStateM.run_bind, run_moveTo, hloc, hin]
      rfl
    | ok inputs =>
      cases hout : f.returns.mapM (lowerParameter source) with
      | error e =>
        rw [Function.code, hloc, hin, hout]
        refine ⟨{ b with location := location }, ?_⟩
        rw [lowerFunction, EStateM.run_bind, run_moveTo, hloc, hin, hout]
        rfl
      | ok results =>
        by_cases hmany : 1 < f.returns.length
        · simp only [Function.code, hloc, hin, hout, Outcome.ok_bind, hmany, ↓reduceIte]
          refine ⟨{ b with location := location }, ?_⟩
          rw [lowerFunction, EStateM.run_bind, run_moveTo, hloc, hin, hout]
          simp only [hmany, ↓reduceIte]
          rfl
        · exact functionLowered_opened hp hloc hin hout hmany

/-! ## Contracts -/

/-- Adds some functions to the end of a block. -/
def addFunctions (source : Source) (body : BlockId) :
    Module → List Function → Except CompileError Module
  | m, [] => .ok m
  | m, f :: fs => do
    let c ← f.code source m.values.size
    addFunctions source body (m.addFunction body c) fs

/-- Adds a contract with its functions to the end of the body. -/
def addContract (source : Source) (m : Module) (c : Contract) : Except CompileError Module := do
  let location ← locate source c.src
  match overloaded? [] c.functions with
  | some f => do
    let place ← locate source f.src
    .error (.unsupported (.overloaded f.name c.name) place)
  | none => addFunctions source ⟨m.blocks.size⟩ (m.openContract c.name location) c.functions

/-- Adds some contracts to the end of the body. -/
def addContracts (source : Source) : Module → List Contract → Except CompileError Module
  | m, [] => .ok m
  | m, c :: cs => do
    let n ← addContract source m c
    addContracts source n cs

/-- A step makes a module into another one, or fails. -/
def Yields {α : Type} (x : Transform α) (m : Module) : Except CompileError Module → Prop
  | .ok n => ∃ a, x.run m = .ok a n
  | .error e => ∃ n, x.run m = .error e n

/-- One step after another.

**Proof sketch.** By the two outcomes of the first step and, behind a success, of the second. -/
theorem Yields.seq {α β : Type} {x : Transform α} {f : α → Transform β} {m : Module}
    {r : Except CompileError Module} {s : Module → Except CompileError Module}
    (hx : Yields x m r) (hf : ∀ a n, r = .ok n → Yields (f a) n (s n)) :
    Yields (x >>= f) m (r >>= s) := by
  cases r with
  | error e =>
    obtain ⟨n, hx⟩ := hx
    exact ⟨n, by rw [EStateM.run_bind, hx]⟩
  | ok n =>
    obtain ⟨a, hx⟩ := hx
    have hf := hf a n rfl
    rw [Outcome.ok_bind]
    cases hs : s n with
    | error e =>
      rw [hs] at hf
      obtain ⟨n', hf⟩ := hf
      exact ⟨n', by rw [EStateM.run_bind, hx]; exact hf⟩
    | ok n' =>
      rw [hs] at hf
      obtain ⟨a', hf⟩ := hf
      exact ⟨a', by rw [EStateM.run_bind, hx]; exact hf⟩

/-- Lowering a function at the end of a block adds it. -/
theorem yields_lowerFunction (source : Source) (body : BlockId) (m : Module) (f : Function) :
    Yields (Transform.build (fun m => Builder.atEnd m body) (lowerFunction source f)) m
      (f.code source m.values.size >>= fun c => .ok (m.addFunction body c)) := by
  have hrun := functionLowered (b := Builder.atEnd m body) rfl source f
  rw [show (Builder.atEnd m body).ir = m from rfl] at hrun
  cases hcode : f.code source m.values.size with
  | error e =>
    rw [hcode] at hrun
    obtain ⟨c, hrun⟩ := hrun
    exact ⟨c.ir, by rw [run_build, hrun]⟩
  | ok c =>
    rw [hcode] at hrun
    obtain ⟨point, location, hrun⟩ := hrun
    exact ⟨⟨m.ops.size⟩, by rw [run_build, hrun]; rfl⟩

/-- Lowering functions adds them. -/
theorem yields_lowerFunctions (source : Source) (body : BlockId) (m : Module)
    (fs : List Function) :
    Yields (lowerFunctions source body fs) m (addFunctions source body m fs) := by
  induction fs generalizing m with
  | nil => exact ⟨(), rfl⟩
  | cons f fs ih =>
    have hseq := Yields.seq (yields_lowerFunction source body m f)
      (f := fun _ => lowerFunctions source body fs)
      (s := fun n => addFunctions source body n fs) (fun _ n _ => ih n)
    simp only [bind_assoc, Outcome.ok_bind] at hseq
    exact hseq

/-- Creating a contract adds its scope. -/
theorem run_container {m : Module} (hbody : m.region Module.body = ⟨[⟨0⟩], none⟩) (name : String)
    (location : Location) :
    (Transform.build Builder.new (do
      Build.setLocation location
      Build.container .contract name)).run m =
      .ok (⟨m.ops.size⟩, ⟨m.blocks.size⟩) (m.openContract name location) := by
  have hnew : Builder.new m = ⟨m, some ⟨⟨0⟩, none⟩, .unknown⟩ := by
    simp [Builder.new, Builder.atEnd, Module.bodyBlock, hbody]
  have hpoint : (⟨m, some ⟨⟨0⟩, none⟩, location⟩ : Builder).point = some ⟨⟨0⟩, none⟩ := rfl
  have hscope := run_scope hpoint (Module.contractSpec name) rfl []
  have hcontainer : (Build.container .contract name).run ⟨m, some ⟨⟨0⟩, none⟩, location⟩ = _ :=
    hscope
  rw [run_build, hnew, EStateM.run_bind, run_liftM]
  simp only [Build.setLocation, EStateM.run_modify, run_liftM, hcontainer]
  rfl

/-- A module with a block in its body has a place to work in. -/
theorem run_needBody {m : Module} (hbody : m.region Module.body = ⟨[⟨0⟩], none⟩) :
    Transform.needBody.run m = .ok () m := by
  refine run_needBody_eq_ok.2 ⟨?_, rfl⟩
  rw [Module.hasBody, hbody]
  rfl

/-- Lowering a contract adds it.

**Proof sketch.** By the location, then by an overloaded name, whose error is at the function
that repeats it.  Otherwise the contract is opened in the body and its functions are added
(`yields_lowerFunctions`). -/
theorem yields_lowerContract (source : Source) {m : Module}
    (hbody : m.region Module.body = ⟨[⟨0⟩], none⟩) (c : Contract) :
    Yields (lowerContract source c) m (addContract source m c) := by
  unfold lowerContract addContract
  cases hloc : locate source c.src with
  | error e => exact ⟨m, rfl⟩
  | ok location =>
    cases hover : overloaded? [] c.functions with
    | some f =>
      simp only [Outcome.ok_bind]
      cases hplace : locate source f.src with
      | error e => exact ⟨m, rfl⟩
      | ok place => exact ⟨m, rfl⟩
    | none =>
      have hfuncs := yields_lowerFunctions source ⟨m.blocks.size⟩ (m.openContract c.name location)
        c.functions
      have hopened : Yields (do
          Transform.needBody
          let opened ← Transform.build Builder.new do
            Build.setLocation location
            Build.container .contract c.name
          lowerFunctions source opened.2 c.functions
          return opened.1) m
          (addFunctions source ⟨m.blocks.size⟩ (m.openContract c.name location) c.functions) := by
        cases hadd : addFunctions source ⟨m.blocks.size⟩ (m.openContract c.name location)
            c.functions with
        | error e =>
          rw [hadd] at hfuncs
          obtain ⟨n, hfuncs⟩ := hfuncs
          refine ⟨n, ?_⟩
          simp only [EStateM.run_bind, run_needBody hbody, run_container hbody, hfuncs]
        | ok n =>
          rw [hadd] at hfuncs
          obtain ⟨a, hfuncs⟩ := hfuncs
          refine ⟨⟨m.ops.size⟩, ?_⟩
          simp only [EStateM.run_bind, run_needBody hbody, run_container hbody, hfuncs,
            EStateM.run_pure]
      exact hopened

/-- Adding a function extends a module in the block that gets it. -/
theorem Module.extends_addFunction (m : Module) (around : BlockId) (c : FunctionCode) :
    Extends (· = around) m (m.addFunction around c) :=
  ((Extends.refl (· = around) m).addScope _ _ (.inl rfl) _).addLines (.inr (Nat.le_refl _)) c.code

/-- Adding a contract extends a module in the body. -/
theorem Module.extends_openContract (m : Module) (name : String) (location : Location) :
    Extends (· = ⟨0⟩) m (m.openContract name location) :=
  (Extends.refl (· = ⟨0⟩) m).addScope _ _ (.inl rfl) _

/-- Adding functions leaves the regions that were there as they were. -/
theorem region_addFunctions {source : Source} {body : BlockId} {m n : Module}
    {fs : List Function} (h : addFunctions source body m fs = .ok n) {r : RegionId}
    (hr : r.index < m.regions.size) : n.region r = m.region r := by
  induction fs generalizing m with
  | nil =>
    simp only [addFunctions, Except.ok.injEq] at h
    rw [h]
  | cons f fs ih =>
    obtain ⟨c, _, h⟩ := Outcome.bind_eq_ok.1 h
    have hext := m.extends_addFunction body c
    rw [ih h (Nat.lt_of_lt_of_le hr hext.size_regions), hext.regions r hr]

/-- How a contract is added: it has no overloaded functions, and each of them is added. -/
theorem addContract_eq_ok {source : Source} {m n : Module} {c : Contract}
    (h : addContract source m c = .ok n) :
    ∃ location, locate source c.src = .ok location ∧ overloaded? [] c.functions = none ∧
      addFunctions source ⟨m.blocks.size⟩ (m.openContract c.name location) c.functions = .ok n := by
  obtain ⟨location, hloc, h⟩ := Outcome.bind_eq_ok.1 h
  cases hover : overloaded? [] c.functions with
  | some f =>
    rw [hover] at h
    obtain ⟨place, _, h⟩ := Outcome.bind_eq_ok.1 h
    cases h
  | none =>
    rw [hover] at h
    exact ⟨location, hloc, rfl, h⟩

/-- A module with a block in its body keeps it while contracts are added. -/
theorem region_body_addContract {source : Source} {m n : Module} {c : Contract}
    (hbody : m.region Module.body = ⟨[⟨0⟩], none⟩) (h : addContract source m c = .ok n) :
    n.region Module.body = ⟨[⟨0⟩], none⟩ := by
  obtain ⟨location, _, _, h⟩ := addContract_eq_ok h
  have hlt : Module.body.index < m.regions.size :=
    Module.index_lt_of_region_ne fun hd => by rw [hd] at hbody; cases hbody
  have hext := m.extends_openContract c.name location
  rw [region_addFunctions h (Nat.lt_of_lt_of_le hlt hext.size_regions), hext.regions _ hlt, hbody]

/-- Lowering contracts adds them. -/
theorem yields_lowerEach (source : Source) {m : Module}
    (hbody : m.region Module.body = ⟨[⟨0⟩], none⟩) (cs : List Contract) :
    Yields (lowerEach source cs) m (addContracts source m cs) := by
  induction cs generalizing m with
  | nil => exact ⟨(), rfl⟩
  | cons c cs ih =>
    exact Yields.seq (yields_lowerContract source hbody c)
      fun _ n hn => ih (region_body_addContract hbody hn)

/-- The module that a step leaves, or why it failed. -/
def finalModule {α : Type} : EStateM.Result CompileError Module α → Except CompileError Module
  | .ok _ m => .ok m
  | .error e _ => .error e

/-- Lowering runs over a new module. -/
theorem lowerContracts_run (source : Source) (contracts : List Contract) :
    lowerContracts source contracts = (do
      let location ← locate source {}
      finalModule ((lowerEach source contracts >>= fun _ => verified).run
        (Module.new location))) := by
  unfold lowerContracts
  cases locate source {} with
  | error e => rfl
  | ok location =>
    simp only [Outcome.ok_bind, EStateM.run]
    cases (lowerEach source contracts >>= fun _ => verified) (Module.new location) <;> rfl

/-- A check of the module fails or leaves it as it is. -/
theorem run_check (check : Module → Check Unit) (m : Module) :
    (do match check (← get) with
      | .ok _ => return ()
      | .error e => throw (.verification e) : Transform Unit).run m =
        match check m with
        | .ok _ => .ok () m
        | .error e => .error (.verification e) m := by
  simp only [EStateM.run_bind, EStateM.run_get]
  cases check m with
  | ok u => simp only [EStateM.run_pure]
  | error e => simp only [EStateM.run_throw]

/-- The check at the end of a run. -/
theorem run_verified (m : Module) :
    verified.run m = match m.verify with
      | .ok _ => .ok () m
      | .error e => .error (.verification e) m :=
  run_check Module.verify m

/-- **What lowering does**: it adds the contracts to a new module, and verifies the module.

**Proof sketch.** The body of the new module is ready, so `yields_lowerEach` applies to it; what
lowering does with the outcome is to verify it. -/
theorem lowerContracts_eq (source : Source) (contracts : List Contract) :
    lowerContracts source contracts = (do
      let location ← locate source {}
      let m ← addContracts source (Module.new location) contracts
      match m.verify with
      | .ok _ => .ok m
      | .error e => .error (.verification e)) := by
  rw [lowerContracts_run]
  cases locate source {} with
  | error e => rfl
  | ok location =>
    have hbody : (Module.new location).region Module.body = ⟨[⟨0⟩], none⟩ := rfl
    have heach := yields_lowerEach source hbody contracts
    simp only [Outcome.ok_bind, EStateM.run_bind]
    cases hadd : addContracts source (Module.new location) contracts with
    | error e =>
      rw [hadd] at heach
      obtain ⟨n, heach⟩ := heach
      rw [heach]
      rfl
    | ok n =>
      rw [hadd] at heach
      obtain ⟨a, heach⟩ := heach
      rw [heach, Outcome.ok_bind]
      simp only [run_verified]
      cases n.verify <;> rfl

end ContractIR
