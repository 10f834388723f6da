import ContractIR.Proofs.Lowering.Layout
import ContractIR.Proofs.Typing.Scopes

/-!
# Lowered modules are well-typed

Lowering adds contracts and functions one after the other.  The code of a function is well-typed by
itself (`ContractIR.Function.code_typed`); here its lines become operations that have the types of
their kinds and read what stands before them in the function's only block.

## Main definitions

* `ContractIR.Module.Complete` — a well-typed module in which every block of a function is ended.

## Main results

* `ContractIR.complete_of_lowerContracts` — a module that lowering gives is complete.
-/

set_option autoImplicit false

namespace ContractIR

/-! ## Types of lowered code -/

/-- Types are lowered to integers. -/
theorem Lowers.eq_int {ty : SemanticType} {lowered : Ty} (h : Lowers ty lowered) :
    ∃ w, lowered = .int w := by
  obtain ⟨-, t, -, ht⟩ := lowerType_eq_ok (h .unknown)
  exact ⟨_, ht⟩

/-- Parameters are lowered to integers. -/
theorem eq_int_of_mapM {source : Source} {ps : List Parameter} {lowered : List (Ty × Location)}
    (h : ps.mapM (lowerParameter source) = .ok lowered) {ty : Ty}
    (hty : ty ∈ lowered.map Prod.fst) : ∃ w, ty = .int w := by
  obtain ⟨⟨ty, location⟩, hmem, rfl⟩ := List.mem_map.1 hty
  obtain ⟨i, hi⟩ := List.mem_iff_getElem?.1 hmem
  have hlt : i < ps.length := by
    rw [← length_of_mapM h]
    exact (List.getElem?_eq_some_iff.1 hi).1
  exact (lowers_of_mapM h (List.getElem?_eq_getElem hlt) hi).eq_int

/-- The instruction creates no cell, or a cell for integers. -/
def Instr.HoldsIntegers (i : Instr) : Prop := ∀ elem, i = .alloca elem → ∃ w, elem = .int w

/-- Converting creates no cell. -/
theorem holdsIntegers_convertCode {location : Location} {next : Nat} {v w : ValueId}
    {own expected : SemanticType} {code : List CodeLine}
    (h : convertCode location next v own expected = .ok (code, w)) {l : CodeLine}
    (hl : l ∈ code) : l.instr.HoldsIntegers := by
  rcases convertCode_eq_ok h with ⟨_, rfl, _⟩ | ⟨s, t, ty, _, _, _, _, _, rfl, _⟩
  · cases hl
  · rw [List.mem_singleton.1 hl]
    intro elem helem
    cases helem

/-- Computing an expression creates no cell.

**Proof sketch.** Induction on the expression.  Its own line is a constant, a read or an
arithmetic operation and creates no cell; the lines of its sides are covered by induction, those
of a conversion by `holdsIntegers_convertCode`. -/
theorem Expression.holdsIntegers_code {source : Source} {cells : Cells} (e : Expression)
    {next : Nat} {expected : SemanticType} {code : List CodeLine} {v : ValueId}
    (h : e.code source cells next expected = .ok (code, v)) {l : CodeLine} (hl : l ∈ code) :
    l.instr.HoldsIntegers := by
  induction e generalizing next expected code v with
  | literal text ty src =>
    obtain ⟨location, lowered, n, more, _, _, _, hmore, rfl⟩ := Expression.code_literal_eq_ok h
    rcases List.mem_cons.1 hl with rfl | hl
    · intro elem helem
      cases helem
    · exact holdsIntegers_convertCode hmore hl
  | identifier name declaration ty src =>
    obtain ⟨location, cell, lowered, more, _, _, _, hmore, rfl⟩ :=
      Expression.code_identifier_eq_ok h
    rcases List.mem_cons.1 hl with rfl | hl
    · intro elem helem
      cases helem
    · exact holdsIntegers_convertCode hmore hl
  | binary operator left right ty src ihl ihr =>
    obtain ⟨op, leftCode, lhs, rightCode, rhs, location, lowered, more, _, hleft, hright, _, _,
      hmore, rfl⟩ := Expression.code_binary_eq_ok h
    simp only [List.mem_append, List.mem_cons] at hl
    rcases hl with hl | hl | rfl | hl
    · exact ihl hleft hl
    · exact ihr hright hl
    · intro elem helem
      cases helem
    · exact holdsIntegers_convertCode hmore hl

/-- The cells of parameters hold what the parameters are lowered to. -/
theorem holdsIntegers_spillCode {next : Nat}
    {params : List (Parameter × ValueId × Ty × Location)}
    (hparams : ∀ q ∈ params, ∃ w, q.2.2.1 = .int w) {l : CodeLine}
    (hl : l ∈ spillCode next params) : l.instr.HoldsIntegers := by
  induction params generalizing next with
  | nil => cases hl
  | cons q params ih =>
    obtain ⟨p, arg, ty, location⟩ := q
    simp only [spillCode, List.mem_cons] at hl
    rcases hl with rfl | rfl | hl
    · intro elem helem
      cases helem
      exact hparams (p, arg, ty, location) (.head _)
    · intro elem helem
      cases helem
    · exact ih (fun q hq => hparams q (.tail _ hq)) hl

/-- A function takes and gives integers, and its cells hold integers.

**Proof sketch.** Parameters and results were lowered to integers (`eq_int_of_mapM`).  Code is
the spilling of the arguments, whose cells have their types, then the expression, and the return;
neither of the latter two creates a cell. -/
theorem Function.code_integers {source : Source} {f : Function} {first : Nat} {c : FunctionCode}
    (h : f.code source first = .ok c) :
    (∀ t ∈ c.signature.inputs, ∃ w, t = .int w) ∧ (∀ t ∈ c.signature.results, ∃ w, t = .int w) ∧
      ∀ l ∈ c.code, l.instr.HoldsIntegers := by
  obtain ⟨location, inputs, results, _, hin, hout, _, hsig, _, hcode⟩ := Function.code_eq_ok h
  have hspill : ∀ l ∈ spillCode (first + inputs.length) (f.arguments first inputs),
      l.instr.HoldsIntegers := by
    intro l hl
    refine holdsIntegers_spillCode (fun q hq => ?_) hl
    obtain ⟨i, -, -, hi⟩ := Function.getElem?_of_mem_arguments hq
    exact eq_int_of_mapM hin (List.mem_map_of_mem (List.mem_of_getElem? hi))
  rw [hsig]
  refine ⟨fun t => eq_int_of_mapM hin, fun t => eq_int_of_mapM hout, fun l hl => ?_⟩
  rcases hcode with ⟨_, _, hcode⟩ | ⟨p, e, src, place, body, v, _, _, _, he, hcode⟩
  · rw [hcode] at hl
    rcases List.mem_append.1 hl with hl | hl
    · exact hspill l hl
    · rw [List.mem_singleton.1 hl]
      intro elem helem
      cases helem
  · rw [hcode] at hl
    simp only [List.mem_append, List.mem_singleton] at hl
    rcases hl with hl | hl | rfl
    · exact hspill l hl
    · exact e.holdsIntegers_code he hl
    · intro elem helem
      cases helem

/-! ## Lines -/

/-- The values of a context are arguments of a block or results in it, and are integers or cells
for integers. -/
def Module.KnownIn (m : Module) (b : BlockId) (Γ : Context) : Prop :=
  ∀ v ty, Γ v = some ty →
    m.typeOf v = ty ∧ (v ∈ (m.block b).args ∨ ∃ p ∈ (m.block b).ops, v ∈ (m.op p).results) ∧
      ∃ w, ty = .int w ∨ ty = .memref (.int w)

/-- The types of values that a context knows. -/
theorem Module.KnownIn.typesOf {m : Module} {b : BlockId} {Γ : Context} (hΓ : m.KnownIn b Γ)
    {values : List ValueId} {types : List Ty} (h : values.map Γ = types.map some) :
    m.typesOf values = types :=
  Context.typesOf_eq (fun v ty hv => (hΓ v ty hv).1) h

/-- A typed instruction has the type of its kind.

**Proof sketch.** One case for each typing rule.  What the context knows are the types in the
module, and for a read the type of the cell says what it holds. -/
theorem Instr.Typed.hasType {env : Env} {m : Module} {b : BlockId} {results : List Ty} {Γ : Context}
    {i : Instr} (h : i.Typed results Γ) (hΓ : m.KnownIn b Γ) (hcells : i.HoldsIntegers)
    (hresults : ∀ t ∈ results, ∃ w, t = .int w) :
    i.kind.HasType env i.attrs (m.typesOf i.operands) i.result?.toList := by
  have htype : ∀ {v ty}, Γ v = some ty → m.typeOf v = ty := fun hv => (hΓ _ _ hv).1
  cases h with
  | constant n w => exact .constant rfl rfl
  | @arith op lhs rhs w hl hr =>
    simp only [Instr.operands, Module.typesOf, List.map_cons, List.map_nil, htype hl, htype hr]
    cases op <;> exact .binary rfl rfl
  | @extend signed v w w' hv hw =>
    simp only [Instr.operands, Module.typesOf, List.map_cons, List.map_nil, htype hv]
    cases signed <;> exact .extend rfl rfl hw
  | alloca elem =>
    obtain ⟨w, rfl⟩ := hcells elem rfl
    exact .cell rfl
  | @load cell ty hc =>
    simp only [Instr.operands, Module.typesOf, List.map_cons, List.map_nil, htype hc]
    obtain ⟨w, hw | hw⟩ := (hΓ _ _ hc).2.2
    · cases hw
    · obtain rfl := Ty.memref.inj hw
      exact .load rfl rfl
  | @store v cell ty hc hv =>
    simp only [Instr.operands, Module.typesOf, List.map_cons, List.map_nil, htype hc, htype hv]
    exact .store rfl rfl
  | @ret values hvalues =>
    simp only [Instr.operands, hΓ.typesOf hvalues]
    refine .ret rfl fun t ht => ?_
    obtain ⟨w, rfl⟩ := hresults t ht
    rfl

/-- The result of a typed instruction is an integer or a cell for integers. -/
theorem Instr.Typed.result_integers {m : Module} {b : BlockId} {results : List Ty} {Γ : Context}
    {i : Instr} (h : i.Typed results Γ) (hΓ : m.KnownIn b Γ) (hcells : i.HoldsIntegers) {ty : Ty}
    (hty : i.result? = some ty) : ∃ w, ty = .int w ∨ ty = .memref (.int w) := by
  cases h with
  | constant | arith | extend =>
    cases hty
    exact ⟨_, .inl rfl⟩
  | alloca elem =>
    cases hty
    obtain ⟨w, rfl⟩ := hcells elem rfl
    exact ⟨w, .inr rfl⟩
  | load hc =>
    cases hty
    obtain ⟨w, hw | hw⟩ := (hΓ _ _ hc).2.2
    · cases hw
    · exact ⟨w, .inl (Ty.memref.inj hw)⟩
  | store | ret => cases hty

/-- No instruction branches or returns from the contract. -/
theorem Instr.kind_ne (i : Instr) : i.kind ≠ .llvm .condBr ∧ i.kind ≠ .sol .ret := by
  cases i with
  | arith op => cases op <;> simp [Instr.kind]
  | extend signed => cases signed <;> simp [Instr.kind]
  | constant | alloca | load | store | ret => simp [Instr.kind]

/-- Only a return becomes a return. -/
theorem Instr.eq_ret_of_low {i : Instr} (h : i.kind.low = .llvm .ret) :
    ∃ values, i = .ret values := by
  cases i with
  | arith op => cases op <;> cases h
  | extend signed => cases signed <;> cases h
  | constant | alloca | load | store => cases h
  | ret values => exact ⟨values, rfl⟩

namespace Module

variable {env : Env} {m : Module} {b : BlockId}

/-- A line's result joins what is known in a block.

**Proof sketch.** What was known stays known, since old values keep their types and their
operations stay in the block.  The result of the line has the type that the context gets, and its
operation is now in the block. -/
theorem KnownIn.addLine {Γ : Context} (hΓ : m.KnownIn b Γ) (h : m.WellTyped env)
    (hb : b.index < m.blocks.size) (l : CodeLine)
    (hresult : ∀ ty, l.instr.result? = some ty → ∃ w, ty = .int w ∨ ty = .memref (.int w)) :
    (m.addLine b l).KnownIn b (Γ.add m.values.size l.instr.result?) := by
  have hext : Extends (· = b) m (m.addLine b l) :=
    (Extends.refl (· = b) m).addOp l.instr.spec l.location (.inl rfl) none
  have hblock : ((m.addLine b l).block b).ops = (m.block b).ops ++ [⟨m.ops.size⟩] := by
    rw [Module.addLine, block_addOp, if_pos ⟨rfl, hb⟩]
    rfl
  have hold : ∀ v ty, Γ v = some ty → (m.addLine b l).typeOf v = ty ∧
      (v ∈ ((m.addLine b l).block b).args ∨
        ∃ p ∈ ((m.addLine b l).block b).ops, v ∈ ((m.addLine b l).op p).results) ∧
      ∃ w, ty = .int w ∨ ty = .memref (.int w) := by
    intro v ty hv
    obtain ⟨hty, hplace, hw⟩ := hΓ v ty hv
    have hlt : v.index < m.values.size := by
      rcases hplace with harg | ⟨p, -, hp⟩
      · exact h.args_lt b v harg
      · exact h.results_lt p v hp
    refine ⟨by rw [typeOf, hext.values v hlt]; exact hty, ?_, hw⟩
    rcases hplace with harg | ⟨p, hmem, hp⟩
    · exact .inl ((hext.grown b hb).1 ▸ harg)
    · refine .inr ⟨p, hblock ▸ List.mem_append_left _ hmem, ?_⟩
      rw [hext.ops p (h.ops_lt hmem)]
      exact hp
  intro v ty hv
  cases hres : l.instr.result? with
  | none =>
    rw [hres] at hv
    exact hold v ty hv
  | some t =>
    rw [hres] at hv
    simp only [Context.add] at hv
    split at hv
    · rename_i hvnew
      obtain rfl := Option.some.inj hv
      have htypes := m.typesOf_results_addOp l.instr.spec l.location b none
      have hspec : l.instr.spec.results = [t] := by rw [Instr.spec, hres]; rfl
      have hresults : ((m.addLine b l).op ⟨m.ops.size⟩).results = [v] := by
        rw [op_addLine, if_pos rfl, CodeLine.toOp, Instr.count, hres, hvnew]
        rfl
      rw [← Module.addLine, hspec, hresults] at htypes
      refine ⟨(List.cons.inj htypes).1, .inr ⟨⟨m.ops.size⟩, ?_, ?_⟩, hresult t hres⟩
      · rw [hblock]
        exact List.mem_append_right _ (.head _)
      · rw [hresults]
        exact .head _
    · exact hold v ty hv

/-- Typed lines at the end of the block of a function keep a module well-typed.

**Proof sketch.** Induction along the code.  A line has the type of its kind
(`Instr.Typed.hasType`), its operands are known in the block, and its result is known afterwards. -/
theorem WellTyped.addLines (h : m.WellTyped env) (hb : b.index < m.blocks.size) {Γ : Context}
    (hΓ : m.KnownIn b Γ) {f : OpId} {signature : Signature} (howner : m.owner? b = some f)
    (hkind : (m.kind f).isFunction = true) (hsignature : m.signature? f = some signature)
    {code : List CodeLine} (htyped : CodeTyped signature.results Γ m.values.size code)
    (hcells : ∀ l ∈ code, l.instr.HoldsIntegers)
    (hresults : ∀ t ∈ signature.results, ∃ w, t = .int w) : (m.addLines b code).WellTyped env := by
  induction code generalizing m Γ with
  | nil => exact h
  | cons l code ih =>
    obtain ⟨hl, hcode⟩ := htyped
    have htype : l.instr.kind.HasType env l.instr.attrs (m.typesOf l.instr.operands)
        l.instr.result?.toList := hl.hasType hΓ (hcells l (.head _)) hresults
    have hext : Extends (· = b) m (m.addLine b l) :=
      (Extends.refl (· = b) m).addOp l.instr.spec l.location (.inl rfl) none
    have hknown : ∀ v ∈ l.instr.operands, v ∈ (m.block b).args ∨
        ∃ p ∈ (m.block b).ops, v ∈ (m.op p).results := by
      intro v hv
      obtain ⟨ty, hty⟩ := hl.operand_known hv
      exact (hΓ v ty hty).2.1
    have hvalues : ∀ v ∈ l.instr.operands, v.index < m.values.size := by
      intro v hv
      rcases hknown v hv with harg | ⟨p, -, hp⟩
      · exact h.args_lt b v harg
      · exact h.results_lt p v hp
    have howner' : (m.addLine b l).owner? b = some f := by
      rw [WellTyped.owner?_of_extends h.toLinked hext hb, howner]
    have hf := hext.ops f (h.owner_lt howner)
    have hkind' : ((m.addLine b l).kind f).isFunction = true := by rw [kind, hf]; exact hkind
    have hsignature' : (m.addLine b l).signature? f = some signature := by
      rw [signature?, attr?, hf]
      exact hsignature
    have hop : (m.addLine b l).op ⟨m.ops.size⟩ = l.toOp m.values.size b := by
      rw [op_addLine, if_pos rfl]
    have hnew : (m.addLine b l).OpTyped env ⟨m.ops.size⟩ := by
      refine Cursor.opTyped_addOp rfl hvalues htype l.instr.kind_ne.1 (fun hlow => ?_)
        fun hsol => absurd hsol l.instr.kind_ne.2
      obtain ⟨values, hvals⟩ := Instr.eq_ret_of_low hlow
      refine ⟨f, signature, ?_, hkind', hsignature', ?_⟩
      · rw [← howner']
        exact parentOp?_eq_owner? (by rw [← Module.addLine, hop]; rfl)
      · rw [← Module.addLine, hop]
        refine (WellTyped.typesOf_of_extends hext hvalues).trans (hΓ.typesOf ?_)
        rw [hvals] at hl ⊢
        cases hl with
        | ret hret => exact hret
    have hwell : (m.addLine b l).WellTyped env := by
      refine h.of_insert (h.toLinked.addOp l.instr.spec l.location hvalues hb none) hext
        (size_ops_addOp _ _ _ _ _) (size_blocks_addOp _ _ _ _ _) hb (List.append_nil _).symm ?_
        ?_ hnew
      · rw [Module.addLine, block_addOp, if_pos ⟨rfl, hb⟩]
        rfl
      · rw [hop]
        exact hknown
    have hsize : (m.addLine b l).values.size = m.values.size + l.instr.count := by
      rw [Module.addLine, size_values_addOp]
      rfl
    rw [addLines_cons]
    refine ih hwell (by rw [Module.addLine, size_blocks_addOp]; exact hb) 
      (hΓ.addLine h hb l fun ty hty => hl.result_integers hΓ (hcells l (.head _)) hty)
      howner' hkind' hsignature' (hsize ▸ hcode) fun l' hl' => hcells l' (.tail _ hl')

/-! ## Functions and contracts -/

/-- A well-typed module in which every block of a function is ended. -/
structure Complete (env : Env) (m : Module) : Prop extends m.WellTyped env where
  ended : m.EndedBut fun _ => False

/-- A module with consistent links refers to what it has. -/
theorem Linked.closed (h : m.Linked) : m.Closed where
  regions _ _ hr := h.regions_lt hr
  results := h.results_lt
  parents _ _ hb := h.block_lt hb
  blocks := h.blocks_lt
  members _ _ ho := h.ops_lt ho

/-- The arguments of a new function are known in its block. -/
theorem knownIn_addScope_function (m : Module) (name : String) {signature : Signature}
    (location : Location) (b : BlockId) (hinputs : ∀ t ∈ signature.inputs, ∃ w, t = .int w) :
    (m.addScope (functionSpec name signature) location b signature.inputs).KnownIn
      ⟨m.blocks.size⟩ (argContext m.values.size signature.inputs) := by
  intro v ty hv
  obtain ⟨-, hty⟩ := knows_addScope_function m name signature location b v ty hv
  unfold argContext at hv
  split at hv
  · rename_i hle
    have hlt := (List.getElem?_eq_some_iff.1 hv).1
    refine ⟨hty, .inl ?_, (hinputs ty (List.mem_of_getElem? hv)).imp fun _ => .inl⟩
    rw [args_addScope_function, List.mem_map]
    refine ⟨v.index - m.values.size, List.mem_range.2 hlt, ?_⟩
    rw [← ValueId.index_eq_iff]
    simp only
    omega
  · cases hv

/-- The only block of a new function is ended. -/
theorem ended_addFunction (h : m.WellTyped env) (hb : b.index < m.blocks.size) {source : Source}
    {f : Function} {c : FunctionCode} (hc : f.code source m.values.size = .ok c) :
    (m.addFunction b c).Ended ⟨m.blocks.size⟩ := by
  have hin := in_addFunction h.toLinked.closed hb c
  obtain ⟨init, last, values, next, location, hops, hline, hinit⟩ := hin.exists_return hc
  refine ⟨init, last, ?_, ?_, hinit⟩
  · rw [← hops]
    exact congrArg Block.ops hin.block
  · rw [kind, hline.op]
    rfl

/-- A compiled function keeps a module complete.

**Proof sketch.** The function is opened as a new scope (`addScope_function`), its arguments are
known in its block, and its lines are added one by one (`WellTyped.addLines`).  It ends with a
return, and everything else ended before. -/
theorem Complete.addFunction (h : m.Complete env) (hb : b.index < m.blocks.size) {container : OpId}
    (howner : m.owner? b = some container) (hkind : (m.kind container).isContainer = true)
    {source : Source} {f : Function} {c : FunctionCode}
    (hc : f.code source m.values.size = .ok c) : (m.addFunction b c).Complete env := by
  obtain ⟨hinputs, hresults, hcells⟩ := Function.code_integers hc
  have hscope : (m.addScope (functionSpec c.name c.signature) c.location b
      c.signature.inputs).WellTyped env := by
    refine h.toWellTyped.addScope_function hb rfl rfl rfl rfl rfl rfl ?_ ?_
    · intro k hk
      rw [howner] at hk
      rw [← Option.some.inj hk, hkind]
    · intro t ht
      obtain ⟨w, rfl⟩ := hinputs t ht
      rfl
  have hop := m.op_addScope (functionSpec c.name c.signature) c.location b c.signature.inputs
    ⟨m.ops.size⟩
  rw [if_pos rfl] at hop
  have hregion := m.region_addScope_new (functionSpec c.name c.signature) c.location b
    c.signature.inputs Nat.zero_lt_one
  have hblock := m.block_addScope (functionSpec c.name c.signature) c.location b c.signature.inputs
    ⟨m.blocks.size⟩
  rw [if_pos rfl] at hblock
  refine { toWellTyped := ?_, ended := ?_ }
  · refine hscope.addLines (f := ⟨m.ops.size⟩) (by simp)
      (knownIn_addScope_function m c.name c.location b hinputs) ?_ ?_ ?_ ?_ hcells hresults
    · rw [owner?, hblock, hregion]
    · rw [kind, hop]
      rfl
    · rw [signature?, attr?, hop]
      rfl
    · have htyped := Function.code_typed hc
      rw [size_values_addScope]
      exact htyped
  · have hext := m.extends_addFunction b c
    refine h.ended.of_extends h.toLinked hext ?_ ?_
    · rintro x ⟨-, g, hg, hfunction⟩ (hfalse | rfl)
      · exact .inl hfalse
      · rw [howner] at hg
        rw [← Option.some.inj hg] at hfunction
        rw [OpKind.isContainer_of_isFunction hfunction] at hkind
        cases hkind
    · intro x hx hin
      have hlt := hin.1
      rw [Module.addFunction] at hlt
      simp only [size_blocks_addLines, size_blocks_addScope] at hlt
      obtain rfl : x = ⟨m.blocks.size⟩ := by
        rw [← BlockId.index_eq_iff]
        simp only
        omega
      exact .inr (ended_addFunction h.toWellTyped hb hc)

/-- A new contract keeps a module complete.

**Proof sketch.** The contract is a container, typed by its kind, name and one region, and joins
the body (`WellTyped.addScope`).  Its block is for symbols and needs no terminator. -/
theorem Complete.openContract (h : m.Complete env) (hbody : m.region body = ⟨[⟨0⟩], none⟩)
    (name : String) (location : Location) : (m.openContract name location).Complete env := by
  obtain ⟨hlt, howner⟩ := owner?_body h.toLinked hbody
  have hext := m.extends_openContract name location
  have hop := m.op_addScope (contractSpec name) location ⟨0⟩ [] ⟨m.ops.size⟩
  rw [if_pos rfl, ← Module.openContract] at hop
  have hregion := m.region_addScope_new (contractSpec name) location ⟨0⟩ [] Nat.zero_lt_one
  have hblock := m.block_addScope (contractSpec name) location ⟨0⟩ [] ⟨m.blocks.size⟩
  rw [if_pos rfl, ← Module.openContract] at hblock
  have hname : (m.openContract name location).symName? ⟨m.ops.size⟩ = some name := by
    rw [symName?, attr?, hop]
    rfl
  have hkind : (m.openContract name location).kind ⟨m.ops.size⟩ = .sol .contract := by
    rw [kind, hop]
    rfl
  refine { toWellTyped := ?_, ended := ?_ }
  · refine h.toWellTyped.addScope rfl rfl hlt (by simp) (.container ?_ ?_ ?_ hname ?_)
    · rw [← Module.openContract, hkind]
      rfl
    · rw [← Module.openContract, hop]
      rfl
    · rw [← Module.openContract, hop]
      rfl
    · rw [← howner]
      exact h.toWellTyped.parentOp?_new hext hlt (by rw [hop]; rfl)
  · refine h.ended.of_extends h.toLinked hext ?_ ?_
    · rintro x ⟨-, g, hg, -⟩ (hfalse | rfl)
      · exact .inl hfalse
      · rw [howner] at hg
        cases hg
    · rintro x hx ⟨hxlt, g, hg, hfunction⟩
      rw [Module.openContract, size_blocks_addScope] at hxlt
      obtain rfl : x = ⟨m.blocks.size⟩ := by
        rw [← BlockId.index_eq_iff]
        simp only
        omega
      rw [owner?, hblock] at hg
      simp only at hg
      rw [Module.openContract, hregion] at hg
      rw [← Option.some.inj hg, hkind] at hfunction
      cases hfunction

end Module

/-- Compiled functions keep a module complete. -/
theorem complete_addFunctions {env : Env} {source : Source} {b : BlockId} {m n : Module}
    {fs : List Function} (h : addFunctions source b m fs = .ok n) (hm : m.Complete env)
    (hb : b.index < m.blocks.size) {container : OpId} (howner : m.owner? b = some container)
    (hkind : (m.kind container).isContainer = true) : n.Complete env := by
  induction fs generalizing m with
  | nil =>
    simp only [addFunctions, Except.ok.injEq] at h
    exact h ▸ hm
  | cons f fs ih =>
    obtain ⟨c, hc, h⟩ := Outcome.bind_eq_ok.1 h
    have hext := m.extends_addFunction b c
    refine ih h (hm.addFunction hb howner hkind hc) (Nat.lt_of_lt_of_le hb hext.size_blocks) ?_ ?_
    · rw [Module.WellTyped.owner?_of_extends hm.toLinked hext hb, howner]
    · rw [Module.kind, hext.ops container (hm.owner_lt howner)]
      exact hkind

/-- A compiled contract keeps a module complete. -/
theorem complete_addContract {env : Env} {source : Source} {m n : Module} {c : Contract}
    (h : addContract source m c = .ok n) (hm : m.Complete env)
    (hbody : m.region Module.body = ⟨[⟨0⟩], none⟩) : n.Complete env := by
  obtain ⟨location, -, -, h⟩ := addContract_eq_ok h
  have hop := m.op_addScope (Module.contractSpec c.name) location ⟨0⟩ [] ⟨m.ops.size⟩
  have hregion := m.region_addScope_new (Module.contractSpec c.name) location ⟨0⟩ []
    Nat.zero_lt_one
  have hblock := m.block_addScope (Module.contractSpec c.name) location ⟨0⟩ [] ⟨m.blocks.size⟩
  rw [if_pos rfl] at hop hblock
  have howner : (m.openContract c.name location).owner? ⟨m.blocks.size⟩ = some ⟨m.ops.size⟩ := by
    rw [Module.openContract, Module.owner?, hblock, hregion]
  refine complete_addFunctions h (hm.openContract hbody c.name location) ?_ howner ?_
  · rw [Module.openContract, Module.size_blocks_addScope]
    exact Nat.lt_succ_self _
  · rw [Module.openContract, Module.kind, hop]
    rfl

/-- Compiled contracts keep a module complete. -/
theorem complete_addContracts {env : Env} {source : Source} {m n : Module} {cs : List Contract}
    (h : addContracts source m cs = .ok n) (hm : m.Complete env)
    (hbody : m.region Module.body = ⟨[⟨0⟩], none⟩) : n.Complete env := by
  induction cs generalizing m with
  | nil =>
    simp only [addContracts, Except.ok.injEq] at h
    exact h ▸ hm
  | cons c cs ih =>
    obtain ⟨p, hp, h⟩ := Outcome.bind_eq_ok.1 h
    exact ih h (complete_addContract hp hm hbody) (region_body_addContract hbody hp)

/-- A new module is complete. -/
theorem Module.Complete.new {env : Env} (location : Location) :
    (Module.new location).Complete env where
  toLinked := .new location
  typed id b hb := by cases hb
  reads id b hb := by cases hb
  args b v hv := by
    rcases b with ⟨_ | b⟩ <;> cases hv
  ended := by
    rintro b ⟨-, f, hf, -⟩
    have hnone : (Module.new location).owner? b = none := by
      rcases b with ⟨_ | b⟩ <;> rfl
    rw [hnone] at hf
    cases hf

/-- **A module that lowering gives is complete**: its links are consistent, every operation is typed
and reads what stands before it, and every block of a function ends with its only terminator. -/
theorem complete_of_lowerContracts {source : Source} {contracts : List Contract} {m : Module}
    (h : lowerContracts source contracts = .ok m) (env : Env) : m.Complete env := by
  rw [lowerContracts_eq] at h
  obtain ⟨location, -, h⟩ := Outcome.bind_eq_ok.1 h
  obtain ⟨n, hn, h⟩ := Outcome.bind_eq_ok.1 h
  have hcomplete : n.Complete env := complete_addContracts hn (.new location) rfl
  split at h
  · obtain rfl := Except.ok.inj h
    exact hcomplete
  · cases h

end ContractIR
