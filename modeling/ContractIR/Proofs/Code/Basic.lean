import ContractIR.Proofs.Module.Extension

/-!
# Straight-line code

The body of a lowered function is a list of operations without regions, each with at most one
result, at the end of one block.  `Instr` lists the forms that occur; emitting a line of code
creates the operation and puts it at the end of a block.

## Main definitions

* `ContractIR.Instr`, `ContractIR.CodeLine` — an instruction, and an instruction with its location.
* `ContractIR.Module.addLine`, `ContractIR.Module.addLines` — lines at the end of a block.
* `ContractIR.AlongCode` — a property of every line of some code, its operation and its number.
* `ContractIR.Module.Carries` — a list of operations is a list of lines, whose results are numbered
  from a given number on.

## Main results

* `ContractIR.Module.Extends.addLines` — emitting code extends a module.
* `ContractIR.Module.carries_addLines` — the new operations are the code.
* `ContractIR.Module.Carries.mono` — code stays where it is while the module is extended.
-/

set_option autoImplicit false

namespace ContractIR

/-! ## Instructions -/

/-- The arithmetic that is compiled. -/
inductive Arithmetic where
  | add | mul
deriving DecidableEq, Inhabited

/-- The operations that bodies of functions are made of. -/
inductive Instr where
  /-- An integer constant. -/
  | constant (n : Int) (ty : Ty)
  /-- Arithmetic on two integers of one type. -/
  | arith (op : Arithmetic) (lhs rhs : ValueId) (ty : Ty)
  /-- A conversion to a wider integer type, with copies of the sign bit or with zeros. -/
  | extend (signed : Bool) (v : ValueId) (ty : Ty)
  | alloca (elem : Ty)
  | load (cell : ValueId) (ty : Ty)
  | store (v cell : ValueId)
  | ret (values : List ValueId)
deriving DecidableEq, Inhabited

namespace Instr

/-- The kind of the operation. -/
def kind : Instr → OpKind
  | .constant .. => .arith .constant
  | .arith .add .. => .arith .addi
  | .arith .mul .. => .arith .muli
  | .extend true .. => .arith .extsi
  | .extend false .. => .arith .extui
  | .alloca _ => .memref .alloca
  | .load .. => .memref .load
  | .store .. => .memref .store
  | .ret _ => .func .ret

/-- What the operation reads. -/
def operands : Instr → List ValueId
  | .constant .. | .alloca _ => []
  | .arith _ lhs rhs _ => [lhs, rhs]
  | .extend _ v _ => [v]
  | .load cell _ => [cell]
  | .store v cell => [v, cell]
  | .ret values => values

/-- The type of the operation's result, if it has one. -/
def result? : Instr → Option Ty
  | .constant _ ty | .arith _ _ _ ty | .extend _ _ ty | .load _ ty => some ty
  | .alloca elem => some (.memref elem)
  | .store .. | .ret _ => none

/-- The attributes of the operation. -/
def attrs : Instr → AttrDict
  | .constant n ty => .ofList [(AttrName.value, .int n ty)]
  | _ => {}

/-- The number of results. -/
def count (i : Instr) : Nat := i.result?.toList.length

/-- What the operation is made of. -/
def spec (i : Instr) : Module.OpSpec where
  kind := i.kind
  operands := i.operands
  results := i.result?.toList
  attrs := i.attrs

/-- No instruction is a function, a container or anything else that owns regions or a symbol. -/
theorem kind_isSymbol (i : Instr) : i.kind.isSymbol = false := by
  cases i with
  | arith op => cases op <;> rfl
  | extend signed => cases signed <;> rfl
  | _ => rfl

/-- Instructions belong to three dialects. -/
theorem dialect_kind (i : Instr) :
    i.kind.dialect = .arith ∨ i.kind.dialect = .memref ∨ i.kind.dialect = .func := by
  cases i with
  | arith op => cases op <;> simp [kind, OpKind.dialect]
  | extend signed => cases signed <;> simp [kind, OpKind.dialect]
  | _ => simp [kind, OpKind.dialect]

/-- Only returns end a block. -/
theorem kind_isTerminator (i : Instr) : i.kind.isTerminator = true ↔ ∃ values, i = .ret values := by
  cases i with
  | arith op => cases op <;> simp [kind, OpKind.isTerminator]
  | extend signed => cases signed <;> simp [kind, OpKind.isTerminator]
  | _ => simp [kind, OpKind.isTerminator]

end Instr

/-- An instruction and the place that it comes from. -/
structure CodeLine where
  instr : Instr
  location : Location
deriving DecidableEq, Inhabited

namespace CodeLine

/-- The operation of a line whose result has a given number, in a block. -/
def toOp (l : CodeLine) (next : Nat) (b : BlockId) : Op where
  kind := l.instr.kind
  operands := l.instr.operands
  results := (List.range l.instr.count).map fun i => ⟨next + i⟩
  regions := []
  successors := []
  attrs := l.instr.attrs
  location := l.location
  parent := some b

/-- The operation of a line is not the default one. -/
theorem toOp_ne_default (l : CodeLine) (next : Nat) (b : BlockId) : l.toOp next b ≠ default := by
  intro h
  have hp : (l.toOp next b).parent = (default : Op).parent := by rw [h]
  cases hp

end CodeLine

/-- The number of results of some lines. -/
def codeCount : List CodeLine → Nat
  | [] => 0
  | l :: code => l.instr.count + codeCount code

/-- No code gives no values. -/
@[simp] theorem codeCount_nil : codeCount [] = 0 := rfl

/-- A line and the code behind it give their values. -/
@[simp] theorem codeCount_cons (l : CodeLine) (code : List CodeLine) :
    codeCount (l :: code) = l.instr.count + codeCount code := rfl

/-- Code gives the values of its parts. -/
@[simp] theorem codeCount_append (code more : List CodeLine) :
    codeCount (code ++ more) = codeCount code + codeCount more := by
  induction code with
  | nil => simp
  | cons l code ih => simp [ih, Nat.add_assoc]

namespace Module

/-! ## Emitting code -/

/-- Creates the operation of a line at the end of a block. -/
def addLine (m : Module) (b : BlockId) (l : CodeLine) : Module :=
  m.addOp l.instr.spec l.location b none

/-- Creates the operations of some lines at the end of a block. -/
def addLines (m : Module) (b : BlockId) (code : List CodeLine) : Module :=
  code.foldl (fun n l => n.addLine b l) m

/-- Emitting no code changes nothing. -/
@[simp] theorem addLines_nil (m : Module) (b : BlockId) : m.addLines b [] = m := rfl

/-- Code is emitted line by line. -/
@[simp] theorem addLines_cons (m : Module) (b : BlockId) (l : CodeLine) (code : List CodeLine) :
    m.addLines b (l :: code) = (m.addLine b l).addLines b code := rfl

/-- Code is emitted part by part. -/
theorem addLines_append (m : Module) (b : BlockId) (code more : List CodeLine) :
    m.addLines b (code ++ more) = (m.addLines b code).addLines b more := by
  simp [addLines]

section Emit

variable (m : Module) (b : BlockId) (l : CodeLine)

/-- A new line is the only new operation. -/
theorem op_addLine (id : OpId) :
    (m.addLine b l).op id = if id = ⟨m.ops.size⟩ then l.toOp m.values.size b else m.op id := by
  rw [addLine, op_addOp]
  rfl

/-- A new line stands at the end of its block. -/
theorem block_addLine (x : BlockId) :
    (m.addLine b l).block x =
      if x = b ∧ b.index < m.blocks.size then
        { m.block x with ops := (m.block x).ops ++ [⟨m.ops.size⟩] }
      else m.block x := by
  rw [addLine, block_addOp]
  rfl

/-- A line is one operation. -/
@[simp] theorem size_ops_addLine : (m.addLine b l).ops.size = m.ops.size + 1 := by
  simp [addLine]

/-- A line is no block. -/
@[simp] theorem size_blocks_addLine : (m.addLine b l).blocks.size = m.blocks.size := by
  simp [addLine]

/-- A line gives the values of its instruction. -/
@[simp] theorem size_values_addLine :
    (m.addLine b l).values.size = m.values.size + l.instr.count := by
  simp [addLine, Instr.spec, Instr.count]

/-- A line leaves the regions as they are. -/
@[simp] theorem region_addLine (r : RegionId) : (m.addLine b l).region r = m.region r := by
  simp [addLine, addOp, region, createOp, insertOp, modifyOp, modifyBlock, Instr.spec]

/-- A line owns no region. -/
@[simp] theorem size_regions_addLine : (m.addLine b l).regions.size = m.regions.size := by
  simp [addLine, Instr.spec]

/-- The result of a new line is the next value. -/
theorem value_addLine_new {ty : Ty} (h : l.instr.result? = some ty) :
    (m.addLine b l).value ⟨m.values.size⟩ = ⟨ty, .result ⟨m.ops.size⟩ 0⟩ := by
  rw [addLine, addOp, value_insertOp]
  exact value_createOp_add m l.instr.spec l.location (i := 0) (by simp [Instr.spec, h])

/-- Code makes no blocks. -/
@[simp] theorem size_blocks_addLines (code : List CodeLine) :
    (m.addLines b code).blocks.size = m.blocks.size := by
  induction code generalizing m with
  | nil => rfl
  | cons l code ih => rw [addLines_cons, ih, size_blocks_addLine]

/-- Code is as many operations as it has lines. -/
@[simp] theorem size_ops_addLines (code : List CodeLine) :
    (m.addLines b code).ops.size = m.ops.size + code.length := by
  induction code generalizing m with
  | nil => rfl
  | cons l code ih =>
    rw [addLines_cons, ih, size_ops_addLine, List.length_cons]
    omega

/-- Code gives as many values as are counted. -/
@[simp] theorem size_values_addLines (code : List CodeLine) :
    (m.addLines b code).values.size = m.values.size + codeCount code := by
  induction code generalizing m with
  | nil => rfl
  | cons l code ih =>
    rw [addLines_cons, ih, size_values_addLine, codeCount_cons]
    omega

/-- Code leaves the regions as they are. -/
@[simp] theorem region_addLines (code : List CodeLine) (r : RegionId) :
    (m.addLines b code).region r = m.region r := by
  induction code generalizing m with
  | nil => rfl
  | cons l code ih => rw [addLines_cons, ih, region_addLine]

/-- Code owns no region. -/
@[simp] theorem size_regions_addLines (code : List CodeLine) :
    (m.addLines b code).regions.size = m.regions.size := by
  induction code generalizing m with
  | nil => rfl
  | cons l code ih => rw [addLines_cons, ih, size_regions_addLine]

/-- The numbers of the operations of some lines, the first of which gets a given number. -/
def newOps (first : Nat) (code : List CodeLine) : List OpId :=
  (List.range' first code.length).map OpId.mk

/-- New lines stand at the end of their block, in order. -/
theorem block_addLines (code : List CodeLine) (h : b.index < m.blocks.size) :
    (m.addLines b code).block b =
      { m.block b with ops := (m.block b).ops ++ newOps m.ops.size code } := by
  induction code generalizing m with
  | nil => simp [newOps]
  | cons l code ih =>
    rw [addLines_cons, ih _ (by simpa using h), block_addLine]
    simp [h, newOps, List.range'_succ]

end Emit

/-! ## Extending a module -/

/-- Emitting code to a block of `B`, or to a new one, extends a module. -/
theorem Extends.addLines {B : BlockId → Prop} {m n : Module} (h : Extends B m n) {b : BlockId}
    (hb : B b ∨ m.blocks.size ≤ b.index) (code : List CodeLine) :
    Extends B m (n.addLines b code) := by
  induction code generalizing n with
  | nil => exact h
  | cons l code ih => exact ih (h.addOp l.instr.spec l.location hb none)

/-- Emitting code extends a module in the block that gets it. -/
theorem extends_addLines (m : Module) (b : BlockId) (code : List CodeLine) :
    Extends (· = b) m (m.addLines b code) :=
  (Extends.refl (· = b) m).addLines (.inl rfl) code

end Module

/-! ## Finding code again -/

/-- A property holds of every line of some code, of the operation at the line's place in a list, and
of the number of the line's result, which is `next` for the first line. -/
inductive AlongCode (P : Nat → OpId → CodeLine → Prop) : Nat → List OpId → List CodeLine → Prop
  | nil (next : Nat) : AlongCode P next [] []
  | cons {next : Nat} {id : OpId} {ids : List OpId} {l : CodeLine} {code : List CodeLine}
    (line : P next id l) (rest : AlongCode P (next + l.instr.count) ids code) :
    AlongCode P next (id :: ids) (l :: code)

namespace AlongCode

variable {P Q : Nat → OpId → CodeLine → Prop} {next : Nat} {ids : List OpId}
  {code : List CodeLine}

/-- What follows from the property for the operations of the list holds along the code. -/
theorem imp (h : AlongCode P next ids code)
    (hPQ : ∀ next' id l, id ∈ ids → P next' id l → Q next' id l) : AlongCode Q next ids code := by
  induction h with
  | nil next => exact .nil next
  | cons line _ ih =>
    refine .cons (hPQ _ _ _ (by simp) line) (ih fun next' id l hid => ?_)
    exact hPQ next' id l (List.mem_cons_of_mem _ hid)

/-- Every operation of the list has a line. -/
theorem exists_line (h : AlongCode P next ids code) {id : OpId} (hid : id ∈ ids) :
    ∃ next' l, l ∈ code ∧ P next' id l := by
  induction h with
  | nil => cases hid
  | cons line _ ih =>
    rcases List.mem_cons.1 hid with rfl | hid
    · exact ⟨_, _, by simp, line⟩
    · obtain ⟨next', l, hl, hP⟩ := ih hid
      exact ⟨next', l, List.mem_cons_of_mem _ hl, hP⟩

/-- The operations of code in two parts are those of the parts. -/
theorem of_append {more : List CodeLine} (h : AlongCode P next ids (code ++ more)) :
    ∃ ids₁ ids₂, ids = ids₁ ++ ids₂ ∧ AlongCode P next ids₁ code ∧
      AlongCode P (next + codeCount code) ids₂ more := by
  induction code generalizing next ids with
  | nil => exact ⟨[], ids, rfl, .nil next, h⟩
  | cons l code ih =>
    cases h with
    | @cons _ id ids _ _ line rest =>
      obtain ⟨ids₁, ids₂, rfl, h₁, h₂⟩ := ih rest
      refine ⟨id :: ids₁, ids₂, rfl, .cons line h₁, ?_⟩
      rwa [codeCount_cons, ← Nat.add_assoc]

end AlongCode

namespace Module

/-- Operation `id` of block `b` is a line; if the line has a result, its number is `next`. -/
structure IsLine (m : Module) (b : BlockId) (next : Nat) (id : OpId) (l : CodeLine) : Prop where
  op : m.op id = l.toOp next b
  value : ∀ ty, l.instr.result? = some ty →
    next < m.values.size ∧ m.value ⟨next⟩ = ⟨ty, .result id 0⟩

/-- The operations of a list, in block `b`, are the lines of a list; their results are numbered from
`next` on. -/
abbrev Carries (m : Module) (b : BlockId) : Nat → List OpId → List CodeLine → Prop :=
  AlongCode (m.IsLine b)

/-- The operation of a line has a number in the arena. -/
theorem IsLine.index_lt {m : Module} {b : BlockId} {next : Nat} {id : OpId} {l : CodeLine}
    (h : m.IsLine b next id l) : id.index < m.ops.size :=
  index_lt_of_op_ne (by rw [h.op]; exact l.toOp_ne_default next b)

/-- The types of a line's results. -/
theorem IsLine.typesOf_results {m : Module} {b : BlockId} {next : Nat} {id : OpId}
    {l : CodeLine} (h : m.IsLine b next id l) :
    m.typesOf (m.op id).results = l.instr.result?.toList := by
  rw [h.op]
  cases hr : l.instr.result? with
  | none => simp [CodeLine.toOp, Instr.count, hr, Module.typesOf]
  | some ty =>
    obtain ⟨_, hvalue⟩ := h.value ty hr
    simp [CodeLine.toOp, Instr.count, hr, Module.typesOf, Module.typeOf, hvalue]

/-- Code stays where it is while the module is extended. -/
theorem Carries.mono {B : BlockId → Prop} {m n : Module} {b : BlockId} {next : Nat}
    {ids : List OpId} {code : List CodeLine} (h : m.Carries b next ids code)
    (hext : Extends B m n) : n.Carries b next ids code := by
  refine h.imp fun next' id l _ hl => ⟨?_, fun ty hty => ?_⟩
  · rw [hext.ops id hl.index_lt, hl.op]
  · obtain ⟨hlt, hval⟩ := hl.value ty hty
    exact ⟨Nat.lt_of_lt_of_le hlt hext.size_values, by rw [hext.values _ hlt, hval]⟩

/-- After code was emitted, the new operations are the code.

**Proof sketch.** Induction on the code.  The first line is emitted at the next number, and the
rest grows the module without touching that operation and its value (`extends_addLines`). -/
theorem carries_addLines (m : Module) (b : BlockId) (code : List CodeLine) :
    (m.addLines b code).Carries b m.values.size (newOps m.ops.size code) code := by
  induction code generalizing m with
  | nil => exact .nil _
  | cons l code ih =>
    have hext := extends_addLines (m.addLine b l) b code
    have hrest := ih (m.addLine b l)
    rw [size_ops_addLine, size_values_addLine] at hrest
    have hops : newOps m.ops.size (l :: code) = ⟨m.ops.size⟩ :: newOps (m.ops.size + 1) code := by
      simp [newOps, List.range'_succ]
    rw [addLines_cons, hops]
    refine .cons ⟨?_, fun ty hty => ?_⟩ hrest
    · rw [hext.ops ⟨m.ops.size⟩ (by simp), op_addLine]
      simp
    · have hlt : m.values.size < (m.addLine b l).values.size := by
        simp [Instr.count, hty]
      refine ⟨Nat.lt_of_lt_of_le hlt hext.size_values, ?_⟩
      rw [hext.values ⟨m.values.size⟩ hlt, value_addLine_new m b l hty]

end Module

end ContractIR
