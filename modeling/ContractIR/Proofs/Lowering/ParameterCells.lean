import ContractIR.Proofs.Lowering.Calls
import ContractIR.Proofs.Lowering.Listing
import ContractIR.Proofs.Verification.Paths

/-!
# The cells of parameters

A lowered function starts by giving every parameter a cell of its own, into which it stores the
argument.  Afterwards it touches arguments and cells in one way only: every variable of the returned
expression is one load, from the cell of the last parameter with the variable's declaration.

## Main definitions

* `ContractIR.Expression.reads` — the declarations that an expression reads, from left to right.
* `ContractIR.Function.cellOf?` — the cell of a declaration.
* `ContractIR.Module.KeepsCells` — the operations of a function keep to its cells.

## Main results

* `ContractIR.lookup?_spillCells` — the last parameter of a declaration gives it its cell.
* `ContractIR.lowerContracts_keepsCells` — lowered functions keep to their cells.
-/

set_option autoImplicit false

namespace ContractIR

/-! ## Filling the cells -/

/-- The last parameter of a declaration gives it its cell. -/
theorem lookup?_spillCells (params : List (Parameter × ValueId × Ty × Location)) (next : Nat)
    (cells : Cells) (d : UInt64) :
    (spillCells next params cells).lookup? d =
      ((((params.map Prod.fst).zipIdx next).reverse.find? fun q => decide (q.1.declaration = d)).map
        fun q => ⟨⟨q.2⟩, q.1.ty⟩).or (cells.lookup? d) := by
  induction params generalizing next cells with
  | nil => simp [spillCells]
  | cons q params ih =>
    obtain ⟨p, arg, ty, location⟩ := q
    simp only [spillCells, ih, Cells.lookup?_bind, List.map_cons, List.zipIdx_cons,
      List.reverse_cons, List.find?_append, List.find?_singleton, Option.map_or, Option.or_assoc]
    by_cases hd : d = p.declaration
    · simp [hd]
    · simp [hd, Ne.symm hd]

/-- The two lines of a parameter stand at its place, and its cell has its number.

**Proof sketch.** Induction on the parameters; each takes two lines and counts one value. -/
theorem getElem?_spillCode {params : List (Parameter × ValueId × Ty × Location)} {i : Nat}
    {p : Parameter} {arg : ValueId} {ty : Ty} {location : Location} (next : Nat)
    (h : params[i]? = some (p, arg, ty, location)) :
    (spillCode next params)[2 * i]? = some ⟨.alloca ty, location⟩ ∧
      (spillCode next params)[2 * i + 1]? = some ⟨.store arg ⟨next + i⟩, location⟩ ∧
      codeCount ((spillCode next params).take (2 * i)) = i := by
  induction params generalizing next i with
  | nil => simp at h
  | cons q params ih =>
    obtain ⟨p', arg', ty', location'⟩ := q
    cases i with
    | zero =>
      obtain ⟨rfl, rfl, rfl, rfl⟩ : p' = p ∧ arg' = arg ∧ ty' = ty ∧ location' = location := by
        simpa using h
      exact ⟨rfl, rfl, rfl⟩
    | succ i =>
      obtain ⟨halloca, hstore, hcount⟩ := ih (i := i) (next + 1) (by simpa using h)
      have heven : 2 * (i + 1) = 2 * i + 1 + 1 := by omega
      simp only [spillCode, heven, List.getElem?_cons_succ, List.take_succ_cons, codeCount_cons]
      refine ⟨halloca, ?_, ?_⟩
      · rw [hstore, Nat.add_assoc next, Nat.add_comm 1]
      · rw [hcount]
        simp [Instr.count, Instr.result?]
        omega

/-- Two lines for every parameter. -/
theorem length_spillCode (next : Nat) (params : List (Parameter × ValueId × Ty × Location)) :
    (spillCode next params).length = 2 * params.length := by
  induction params generalizing next with
  | nil => rfl
  | cons q params ih =>
    obtain ⟨p, arg, ty, location⟩ := q
    simp only [spillCode, List.length_cons, ih]
    omega

/-! ## The code of expressions -/

/-- The declarations that an expression reads, from left to right. -/
def Expression.reads : Expression → List UInt64
  | .literal .. => []
  | .identifier _ declaration _ _ => [declaration]
  | .binary _ left right _ _ => left.reads ++ right.reads

/-- Whether a line is a load. -/
def CodeLine.isLoad (l : CodeLine) : Bool := decide (l.instr.kind = .memref .load)

/-- Converting does not load. -/
theorem filter_isLoad_convertCode {location : Location} {next : Nat} {v w : ValueId}
    {own expected : SemanticType} {code : List CodeLine}
    (h : convertCode location next v own expected = .ok (code, w)) :
    code.filter CodeLine.isLoad = [] := by
  rcases convertCode_eq_ok h with ⟨_, rfl, _⟩ | ⟨_, t, ty, _, _, _, _, _, rfl, _⟩
  · rfl
  · cases ht : t.signed <;> rfl

/-- **The loads of an expression** are its variables, from left to right, each from the cell of its
declaration.

**Proof sketch.** Induction on the expression: a variable loads its cell, arithmetic and
constants load nothing, nor do conversions, and the loads of two sides follow each other. -/
theorem Expression.loads_code {source : Source} {cells : Cells} (e : Expression) {next : Nat}
    {expected : SemanticType} {code : List CodeLine} {v : ValueId}
    (h : e.code source cells next expected = .ok (code, v)) :
    List.Forall₂ (fun l d => ∃ cell ty, cells.lookup? d = some cell ∧
      l.instr = .load cell.address ty) (code.filter CodeLine.isLoad) e.reads := by
  induction e generalizing next expected code v with
  | literal text ty src =>
    obtain ⟨location, lowered, n, more, _, _, _, hmore, rfl⟩ := Expression.code_literal_eq_ok h
    rw [List.filter_cons_of_neg (by simp [CodeLine.isLoad, Instr.kind]),
      filter_isLoad_convertCode hmore]
    exact .nil
  | identifier name declaration ty src =>
    obtain ⟨location, cell, lowered, more, _, hcell, _, hmore, rfl⟩ :=
      Expression.code_identifier_eq_ok h
    rw [List.filter_cons_of_pos (by simp [CodeLine.isLoad, Instr.kind]),
      filter_isLoad_convertCode hmore]
    exact .cons ⟨cell, lowered, hcell, rfl⟩ .nil
  | binary operator left right ty src ihl ihr =>
    obtain ⟨op, leftCode, lhs, rightCode, rhs, location, lowered, more, _, hleft, hright, _, _,
      hmore, rfl⟩ := Expression.code_binary_eq_ok h
    have hop : ¬CodeLine.isLoad ⟨.arith op lhs rhs lowered, location⟩ = true := by
      cases op <;> simp [CodeLine.isLoad, Instr.kind]
    rw [List.filter_append, List.filter_append, List.filter_cons_of_neg hop,
      filter_isLoad_convertCode hmore, List.append_nil]
    exact List.rel_append (ihl hleft) (ihr hright)

/-! ## The code behind the cells -/

/-- An instruction that makes no cell, fills none, and reads nothing below a number. -/
structure Instr.LeavesCells (bound : Nat) (i : Instr) : Prop where
  alloca : i.kind ≠ .memref .alloca
  store : i.kind ≠ .memref .store
  operands : ∀ v ∈ i.operands, bound ≤ v.index

/-- The code of an expression makes and fills no cells, and reads cells and its own values only. -/
theorem Expression.leavesCells_code {source : Source} {cells : Cells} {bound next : Nat}
    (e : Expression) {expected : SemanticType} {code : List CodeLine} {v : ValueId}
    (hcells : ∀ d cell, cells.lookup? d = some cell → bound ≤ cell.address.index)
    (hnext : bound ≤ next) (h : e.code source cells next expected = .ok (code, v)) :
    (∀ l ∈ code, l.instr.LeavesCells bound) ∧ bound ≤ v.index := by
  refine Expression.forall_mem_code (P := Instr.LeavesCells bound)
    (Q := fun v => bound ≤ v.index) ?_ ?_ ?_ ?_ e (fun k hk => Nat.le_trans hnext hk) h
  · intro n ty
    exact ⟨by simp [Instr.kind], by simp [Instr.kind], by simp [Instr.operands]⟩
  · intro d cell ty hcell
    exact ⟨by simp [Instr.kind], by simp [Instr.kind], by
      simpa [Instr.operands] using hcells d cell hcell⟩
  · intro op lhs rhs ty hl hr
    refine ⟨?_, ?_, by simp [Instr.operands, hl, hr]⟩ <;> cases op <;> simp [Instr.kind]
  · intro signed x ty hx
    refine ⟨?_, ?_, by simpa [Instr.operands] using hx⟩ <;> cases signed <;> simp [Instr.kind]

/-- The declarations that the expression of a return reads. -/
def Statement.reads : Statement → List UInt64
  | .ret (some e) _ => e.reads
  | _ => []

/-- The declarations that the returned expression of a function reads, from left to right. -/
def Function.reads (f : Function) : List UInt64 := f.body.flatMap Statement.reads

/-- The cell of a declaration: that of the last parameter which has it. -/
def Function.cellOf? (f : Function) (cells : List ValueId) (d : UInt64) : Option ValueId :=
  ((f.parameters.zip cells).reverse.find? fun q => decide (q.1.declaration = d)).map Prod.snd

/-- The parameters of a function, each paired with its argument. -/
theorem Function.map_fst_arguments {source : Source} {f : Function} {inputs : List (Ty × Location)}
    (hin : f.parameters.mapM (lowerParameter source) = .ok inputs) (first : Nat) :
    (f.arguments first inputs).map Prod.fst = f.parameters := by
  have hlen := length_of_mapM hin
  exact List.map_fst_zip (by simp [hlen])

/-- The parameter, the argument and the lowered type at a place. -/
theorem Function.getElem?_arguments {f : Function} {first i : Nat} {inputs : List (Ty × Location)}
    {p : Parameter} {arg : ValueId} {ty : Ty} {location : Location} :
    (f.arguments first inputs)[i]? = some (p, arg, ty, location) ↔
      f.parameters[i]? = some p ∧ arg = ⟨first + i⟩ ∧ inputs[i]? = some (ty, location) := by
  simp only [Function.arguments, List.getElem?_zip_eq_some, List.getElem?_map]
  refine and_congr_right fun _ => and_congr_left fun hin => ?_
  have hlt : i < inputs.length := (List.getElem?_eq_some_iff.1 hin).1
  simp [List.getElem?_range hlt, eq_comm]

namespace FunctionSite

variable {source : Source} {f : Function} {s : FunctionSite} {m : Module} {around : BlockId}

/-- The addresses of the cells of a function. -/
def cells (s : FunctionSite) : List ValueId :=
  (List.range' s.next s.code.signature.inputs.length).map ValueId.mk

/-- Where a cell is found in a function. -/
theorem cellOf?_eq {inputs : List (Ty × Location)}
    (hin : f.parameters.mapM (lowerParameter source) = .ok inputs)
    (hsig : s.code.signature.inputs = inputs.map Prod.fst) {d : UInt64} {cell : Cell}
    (h : (spillCells s.next (f.arguments s.first inputs) {}).lookup? d = some cell) :
    f.cellOf? s.cells d = some cell.address ∧ s.next ≤ cell.address.index := by
  have hzip : f.parameters.zip s.cells =
      (f.parameters.zipIdx s.next).map fun q => (q.1, ⟨q.2⟩) := by
    rw [List.zipIdx_eq_zip_range', cells, List.zip_map_right, hsig, List.length_map,
      length_of_mapM hin]
    rfl
  rw [lookup?_spillCells, Function.map_fst_arguments hin] at h
  simp only [Cells.lookup?, List.find?_nil, Option.map_none, Option.or_none,
    Option.map_eq_some_iff] at h
  obtain ⟨⟨p, k⟩, hfind, rfl⟩ := h
  constructor
  · rw [Function.cellOf?, hzip, ← List.map_reverse, List.find?_map]
    simp only [Function.comp_def, hfind, Option.map_some]
  · exact List.le_snd_of_mem_zipIdx (List.mem_reverse.1 (List.mem_of_find?_eq_some hfind))

/-- **What follows the cells of a function**: lines that leave cells and arguments alone, and whose
loads are the variables of the returned expression.

**Proof sketch.** By the two forms of the code: behind the cells stands the return alone, or the
code of the expression and the return.  Both read only what they computed themselves, which is
numbered past the cells. -/
theorem Of.exists_rest (hof : s.Of source f) :
    ∃ inputs rest, f.parameters.mapM (lowerParameter source) = .ok inputs ∧
      s.code.signature.inputs = inputs.map Prod.fst ∧
      s.code.code = spillCode s.next (f.arguments s.first inputs) ++ rest ∧
      (∀ l ∈ rest, l.instr.LeavesCells s.next) ∧
      List.Forall₂ (fun l d => ∃ cell ty, f.cellOf? s.cells d = some cell ∧ l.instr = .load cell ty)
        (rest.filter CodeLine.isLoad) f.reads := by
  obtain ⟨location, inputs, results, _, hin, _, _, hsig, _, hcode⟩ := Function.code_eq_ok hof
  have hinputs : s.code.signature.inputs = inputs.map Prod.fst := by rw [hsig]
  have hnext : s.first + inputs.length = s.next := by rw [next, hinputs, List.length_map]
  refine ⟨inputs, ?_⟩
  have hret : ∀ (values : List ValueId) (place : Location), (∀ v ∈ values, s.next ≤ v.index) →
      (∀ l ∈ [CodeLine.mk (.ret values) place], l.instr.LeavesCells s.next) := by
    intro values place hvalues l hl
    rw [List.mem_singleton.1 hl]
    exact ⟨by simp [Instr.kind], by simp [Instr.kind], hvalues⟩
  rcases hcode with ⟨_, hbody, hcode⟩ | ⟨p, e, src, place, body, v, _, hbody, _, he, hcode⟩
  · rw [hnext] at hcode
    refine ⟨[⟨.ret [], location⟩], hin, hinputs, hcode, hret [] location (by simp), ?_⟩
    have hreads : f.reads = [] := by
      rcases hbody with hbody | ⟨src, hbody⟩ <;> simp [Function.reads, hbody, Statement.reads]
    rw [hreads]
    exact .nil
  · rw [hnext] at hcode he
    obtain ⟨hlines, hv⟩ := e.leavesCells_code
      (fun d cell hcell => (cellOf?_eq hin hinputs hcell).2) (Nat.le_add_right _ _) he
    refine ⟨body ++ [⟨.ret [v], place⟩], hin, hinputs, hcode,
      List.forall_mem_append.2 ⟨hlines, hret [v] place (by simpa using hv)⟩, ?_⟩
    have hreads : f.reads = e.reads := by simp [Function.reads, hbody, Statement.reads]
    rw [hreads, List.filter_append,
      show [CodeLine.mk (.ret [v]) place].filter CodeLine.isLoad = [] from rfl, List.append_nil]
    refine (e.loads_code he).imp fun l d hload => ?_
    obtain ⟨cell, ty, hcell, hl⟩ := hload
    exact ⟨cell.address, ty, (cellOf?_eq hin hinputs hcell).1, hl⟩

end FunctionSite

/-! ## Functions of lowered modules -/

/-- **The operations of a function keep to its cells**, which are given in the order of the
parameters. -/
structure Module.KeepsCells (m : Module) (f : Function) (entry : BlockId) (cells : List ValueId) :
    Prop where
  /-- Every parameter has an argument. -/
  length_args : (m.block entry).args.length = f.parameters.length
  /-- Every parameter has a cell. -/
  length_cells : cells.length = f.parameters.length
  /-- The cells are different values. -/
  nodup : cells.Nodup
  /-- First, parameter by parameter, a cell of the parameter's lowered type is made, and the
  argument is stored in it; nothing else in the module reads the argument. -/
  spilled : ∀ i p, f.parameters[i]? = some p → ∃ arg cell alloca store ty,
    (m.block entry).args[i]? = some arg ∧ cells[i]? = some cell ∧ Lowers p.ty ty ∧
    (m.block entry).ops[2 * i]? = some alloca ∧ m.kind alloca = .memref .alloca ∧
    (m.op alloca).operands = [] ∧ (m.op alloca).results = [cell] ∧ m.typeOf cell = .memref ty ∧
    (m.block entry).ops[2 * i + 1]? = some store ∧ m.kind store = .memref .store ∧
    (m.op store).operands = [arg, cell] ∧ ∀ o ∈ m.walk, arg ∈ (m.op o).operands → o = store
  /-- No cell is made or filled afterwards. -/
  rest : ∀ o ∈ (m.block entry).ops.drop (2 * f.parameters.length),
    m.kind o ≠ .memref .alloca ∧ m.kind o ≠ .memref .store
  /-- The loads are the variables of the returned expression, each from the cell of its
  declaration. -/
  loads : List.Forall₂ (fun o d => ∃ cell, f.cellOf? cells d = some cell ∧
      (m.op o).operands = [cell])
    ((m.block entry).ops.filter fun o => decide (m.kind o = .memref .load)) f.reads

/-- An argument of a function is read inside of the function only.

**Proof sketch.** The reader is in the code of some function.  Its operand dominates it, so the
block that defines the argument is in the region around the reader, which is that of one function
only, because functions are isolated. -/
theorem Layout.mem_ops_of_reads {source : Source} {contracts : List Contract}
    {sites : List ContractSite} {m : Module} (h : Layout source contracts sites m)
    (hverify : m.verify = .ok ()) {s : FunctionSite} {around : BlockId} (hs : s.In m around)
    {i : Nat} {ty : Ty} (hi : s.code.signature.inputs[i]? = some ty) {o : OpId}
    (ho : o ∈ m.walk) (hread : ⟨s.first + i⟩ ∈ (m.op o).operands) : o ∈ s.ops := by
  obtain ⟨c, hc, rfl | ⟨t, ht, rfl | hmem⟩⟩ := h.mem_walk ho
  · rw [(h.sites c hc).op] at hread
    cases hread
  · rw [((h.sites c hc).functions t ht).1.op] at hread
    cases hread
  · have hin := ((h.sites c hc).functions t ht).1
    obtain ⟨next, l, _, hline⟩ := hin.body.exists_line hmem
    have hdominates := (Module.of_verify hverify ho).2 _ hread
    have hdefined : m.definedAt? ⟨s.first + i⟩ = some (s.entry, none) := by
      rw [Module.definedAt?, hs.args i ty hi]
    have hparent : (m.op o).parent = some t.entry := by
      rw [hline.op]
      rfl
    have hisolated : (m.kind t.id).isIsolated = true := by
      rw [hin.kind_eq]
      rfl
    simp only [Module.dominates, hdefined, Module.depthBound, Module.reaches, hparent, hin.block,
      hs.block] at hdominates
    split at hdominates
    · -- The two functions share their region, so they share their block.
      rename_i hregion
      have hregions := hin.region
      rw [hregion, hs.region] at hregions
      have hentry : s.entry = t.entry := by simpa using congrArg Region.blocks hregions
      have hblock := hs.block
      rw [hentry, hin.block] at hblock
      have hops : t.ops = s.ops := congrArg Block.ops hblock
      exact hops ▸ hmem
    · simp only [hin.region, hisolated, ↓reduceIte, Bool.false_eq_true] at hdominates

namespace FunctionSite

variable {source : Source} {f : Function} {s : FunctionSite} {m : Module} {around : BlockId}
  {inputs : List (Ty × Location)} {rest : List CodeLine}

/-- Inside of a function, an argument is read by its store only.

**Proof sketch.** By where the reader stands in the code.  In front it is a cell, which reads
nothing, or a store, which reads the argument of its own parameter; what follows reads nothing
below the cells. -/
theorem In.eq_store_of_reads (h : s.In m around)
    (hcode : s.code.code = spillCode s.next (f.arguments s.first inputs) ++ rest)
    (hrest : ∀ l ∈ rest, l.instr.LeavesCells s.next) {i : Nat}
    (hi : i < s.code.signature.inputs.length) {o store : OpId} (ho : o ∈ s.ops)
    (hstore : s.ops[2 * i + 1]? = some store)
    (hread : ⟨s.first + i⟩ ∈ (m.op o).operands) : o = store := by
  obtain ⟨k, hk⟩ := List.mem_iff_getElem?.1 ho
  have hlt : k < s.code.code.length := h.body.length_eq ▸ (List.getElem?_eq_some_iff.1 hk).1
  obtain ⟨l, hl⟩ : ∃ l, s.code.code[k]? = some l := ⟨_, List.getElem?_eq_getElem hlt⟩
  rw [(h.body.of_getElem? hk hl).shows.operands] at hread
  have hnext : s.first + i < s.next := Nat.add_lt_add_left hi s.first
  rw [hcode, List.getElem?_append, length_spillCode] at hl
  split at hl
  · rename_i hspill
    obtain ⟨⟨p, arg, ty, location⟩, hq⟩ : ∃ q, (f.arguments s.first inputs)[k / 2]? = some q :=
      ⟨_, List.getElem?_eq_getElem (by omega)⟩
    obtain ⟨halloca, hfill, -⟩ := getElem?_spillCode s.next hq
    obtain ⟨-, rfl, -⟩ := Function.getElem?_arguments.1 hq
    rcases Nat.mod_two_eq_zero_or_one k with heven | hodd
    · rw [show k = 2 * (k / 2) by omega, halloca] at hl
      obtain rfl := Option.some.inj hl
      cases hread
    · have hplace : k = 2 * (k / 2) + 1 := by omega
      rw [hplace, hfill] at hl
      obtain rfl := Option.some.inj hl
      have hsame : i = k / 2 := by
        simp only [Instr.operands, List.mem_cons, ValueId.mk.injEq, List.not_mem_nil,
          or_false] at hread
        omega
      rw [hplace, ← hsame, hstore] at hk
      exact (Option.some.inj hk).symm
  · have hbound := (hrest l (List.mem_of_getElem? hl)).operands _ hread
    exact absurd hbound (Nat.not_le.2 hnext)

/-- No cell is read while the cells are filled. -/
theorem filter_isLoad_spillCode (next : Nat) (params : List (Parameter × ValueId × Ty × Location)) :
    (spillCode next params).filter CodeLine.isLoad = [] := by
  induction params generalizing next with
  | nil => rfl
  | cons q params ih => exact ih (next + 1)

/-- The operations of a parameter: its cell is made, and its argument stored there.

**Proof sketch.** The two lines of the parameter stand at twice its place (`getElem?_spillCode`),
and the operations there are read off the lines. -/
theorem In.spilled (h : s.In m around)
    (hin : f.parameters.mapM (lowerParameter source) = .ok inputs)
    (hsig : s.code.signature.inputs = inputs.map Prod.fst)
    (hcode : s.code.code = spillCode s.next (f.arguments s.first inputs) ++ rest) {i : Nat}
    {p : Parameter} (hp : f.parameters[i]? = some p) :
    ∃ alloca store ty, s.code.signature.inputs[i]? = some ty ∧ Lowers p.ty ty ∧
      s.ops[2 * i]? = some alloca ∧ m.kind alloca = .memref .alloca ∧
      (m.op alloca).operands = [] ∧ (m.op alloca).results = [⟨s.next + i⟩] ∧
      m.typeOf ⟨s.next + i⟩ = .memref ty ∧ s.ops[2 * i + 1]? = some store ∧
      m.kind store = .memref .store ∧ (m.op store).operands = [⟨s.first + i⟩, ⟨s.next + i⟩] := by
  have hlt : i < inputs.length := by
    rw [length_of_mapM hin]
    exact (List.getElem?_eq_some_iff.1 hp).1
  obtain ⟨⟨ty, location⟩, hi⟩ : ∃ q, inputs[i]? = some q := ⟨_, List.getElem?_eq_getElem hlt⟩
  have hq : (f.arguments s.first inputs)[i]? = some (p, ⟨s.first + i⟩, ty, location) :=
    Function.getElem?_arguments.2 ⟨hp, rfl, hi⟩
  obtain ⟨halloca, hstore, hcount⟩ := getElem?_spillCode s.next hq
  have hall := (List.getElem?_eq_some_iff.1 halloca).1
  have hst := (List.getElem?_eq_some_iff.1 hstore).1
  have hbody := h.body
  rw [hcode] at hbody
  obtain ⟨alloca, halloca', hline⟩ := hbody.exists_op
    ((List.getElem?_append_left hall).trans halloca)
  obtain ⟨store, hstore', hfill⟩ := hbody.exists_op
    ((List.getElem?_append_left hst).trans hstore)
  rw [List.take_append_of_le_length (Nat.le_of_lt hall), hcount] at hline
  obtain ⟨-, hvalue⟩ := hline.value _ rfl
  exact ⟨alloca, store, ty, by simp [hsig, hi], lowers_of_mapM hin hp hi, halloca',
    hline.shows.kind, hline.shows.operands, by rw [hline.op]; rfl, by rw [Module.typeOf, hvalue],
    hstore', hfill.shows.kind, hfill.shows.operands⟩

/-- **A function keeps to its cells** in a module that consists of it and others.

**Proof sketch.** The operations in front are those of the parameters (`In.spilled`), what
follows leaves cells and arguments alone (`Of.exists_rest`), and a reader of an argument is inside
the function and is its store (`mem_ops_of_reads`, `eq_store_of_reads`). -/
theorem In.keepsCells {contracts : List Contract} {sites : List ContractSite}
    (hlayout : Layout source contracts sites m) (hverify : m.verify = .ok ())
    (h : s.In m around) (hof : s.Of source f) : m.KeepsCells f s.entry s.cells := by
  obtain ⟨inputs, rest, hin, hsig, hcode, hrest, hloads⟩ := hof.exists_rest
  have hlen : inputs.length = f.parameters.length := length_of_mapM hin
  have hspilled : (spillCode s.next (f.arguments s.first inputs)).length =
      2 * f.parameters.length := by
    rw [length_spillCode, ← Function.map_fst_arguments hin s.first, List.length_map]
  have hlines := h.body.forall₂
  refine ⟨?_, ?_, ?_, fun i p hp => ?_, fun o ho => ?_, ?_⟩
  · rw [h.block]
    simp [FunctionSite.args, hsig, hlen]
  · simp [cells, hsig, hlen]
  · exact List.Nodup.map (fun i j hij => ValueId.mk.inj hij) List.nodup_range'
  · obtain ⟨alloca, store, ty, hi, hty, halloca, hkind, hnone, hresult, hcell, hstore, hkind',
      hoperands⟩ := h.spilled hin hsig hcode hp
    have hlt : i < s.code.signature.inputs.length := (List.getElem?_eq_some_iff.1 hi).1
    rw [h.block]
    refine ⟨⟨s.first + i⟩, ⟨s.next + i⟩, alloca, store, ty, ?_, ?_, hty, halloca, hkind, hnone,
      hresult, hcell, hstore, hkind', hoperands, fun o ho hread => ?_⟩
    · simp [FunctionSite.args, hlt]
    · simp [cells, hlt]
    · exact h.eq_store_of_reads hcode hrest hlt (hlayout.mem_ops_of_reads hverify h hi ho hread)
        hstore hread
  · rw [h.block] at ho
    rw [hcode] at hlines
    obtain ⟨l, hl, hshows⟩ := Outcome.exists_right
      (List.forall₂_drop (2 * f.parameters.length) hlines) ho
    rw [← hspilled, List.drop_left] at hl
    exact ⟨hshows.kind ▸ (hrest l hl).alloca, hshows.kind ▸ (hrest l hl).store⟩
  · rw [h.block]
    have hfilter : (s.code.code.filter CodeLine.isLoad) = rest.filter CodeLine.isLoad := by
      rw [hcode, List.filter_append, filter_isLoad_spillCode, List.nil_append]
    have hpairs := List.rel_filter (p := fun o => decide (m.kind o = .memref .load))
      (q := CodeLine.isLoad) (fun {o l} hshows => by simp [CodeLine.isLoad, hshows.kind]) hlines
    rw [hfilter] at hpairs
    refine forall₂_trans (fun o l d hshows hload => ?_) hpairs hloads
    obtain ⟨cell, ty, hcell, hl⟩ := hload
    exact ⟨cell, hcell, by rw [hshows.operands, hl]; rfl⟩

end FunctionSite

/-- **Lowered functions keep to their cells.**  What a function consists of is the operations of the
block at which it is entered.

**Proof sketch.** The function is one of the sites that the lowered module is laid out in, and its
code starts with the cells of its parameters (`FunctionSite.In.keepsCells`).  That no other function
reads its arguments is what the verifier checks of dominance. -/
theorem lowerContracts_keepsCells {source : Source} {contracts : List Contract} {m : Module}
    (h : lowerContracts source contracts = .ok m) {c : Contract} (hc : c ∈ contracts)
    {f : Function} (hf : f ∈ c.functions) :
    ∃ id entry cells, m.functionIn? c.name f.name = some id ∧ m.entryBlock? id = some entry ∧
      m.walkOp id = id :: (m.block entry).ops ∧ m.KeepsCells f entry cells := by
  obtain ⟨hverify, -⟩ := layout_of_lowerContracts h
  obtain ⟨sites, hlayout, site, hsite, s, hs, hof, hfound⟩ := exists_site h hc hf
  have hin := ((hlayout.sites site hsite).functions s hs).1
  have hregions : (m.op s.id).regions = [s.region] := by
    rw [hin.op]
    rfl
  refine ⟨s.id, s.entry, s.cells, hfound, hin.entryBlock?_eq, ?_,
    hin.keepsCells hlayout hverify hof⟩
  rw [Module.walkOp, hregions, List.flatMap_singleton, Module.depthBound, hin.walkRegion_eq,
    hin.block]

/-- The function `f(uint8 a, uint16 a) returns (uint32) { return a + a; }`, both of whose parameters
have the same declaration. -/
def shadowingFunction : Function where
  name := "f"
  parameters :=
    [{ declaration := 1, name := "a", ty := .integer ⟨8, false⟩ },
      { declaration := 1, name := "a", ty := .integer ⟨16, false⟩ }]
  returns := [{ declaration := 2, ty := .integer ⟨32, false⟩ }]
  body :=
    [.ret (some (.binary .add (.identifier "a" 1 (.integer ⟨16, false⟩) {})
      (.identifier "a" 1 (.integer ⟨16, false⟩) {}) (.integer ⟨32, false⟩) {})) {}]

/-- A contract with this function. -/
def shadowingContract : Contract where
  name := "C"
  functions := [shadowingFunction]

/-- Both variables are read from the cell of the second parameter. -/
theorem shadowingFunction_keepsCells :
    ∃ m id entry x y, lowerContracts emptySource [shadowingContract] = .ok m ∧
      m.functionIn? "C" "f" = some id ∧ m.entryBlock? id = some entry ∧
      m.KeepsCells shadowingFunction entry [x, y] ∧
      shadowingFunction.reads = [1, 1] ∧ shadowingFunction.cellOf? [x, y] 1 = some y := by
  obtain ⟨m, h⟩ : ∃ m, lowerContracts emptySource [shadowingContract] = .ok m :=
    Outcome.exists_of_isOk (by decide +kernel)
  obtain ⟨id, entry, cells, hfound, hentry, -, hkeeps⟩ := lowerContracts_keepsCells h
    (List.mem_singleton_self _) (List.mem_singleton_self shadowingFunction)
  obtain ⟨x, y, rfl⟩ : ∃ x y, cells = [x, y] := List.length_eq_two.1 hkeeps.length_cells
  exact ⟨m, id, entry, x, y, h, hfound, hentry, hkeeps, rfl, rfl⟩

end ContractIR
