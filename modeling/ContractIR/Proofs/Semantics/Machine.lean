import ContractIR.Proofs.Lowering.Layout

/-!
# Running functions

A function runs its operations one after the other.  Integers are bit patterns of their width:
arithmetic forgets what does not fit, and an extension fills in copies of the sign bit or zeros.  A
cell is a slot of the function's own memory, which holds one word of its type, or nothing yet.

Two levels of operations have a meaning here: functions with arithmetic and cells (`func`, `arith`,
`memref`) and the low-level form of the same (`llvm`), where a cell is a stack slot behind a pointer
and its type is an attribute.  A level says which instruction an operation is; what instructions do
is said once.

## Main definitions

* `ContractIR.Word` — bit patterns, with arithmetic and extensions.
* `ContractIR.Frame`, `ContractIR.Instr.exec` — the state of a function, and what instructions do.
* `ContractIR.Level`, `ContractIR.Level.high`, `ContractIR.Level.low` — the two levels.
* `ContractIR.Level.call` — calls a function with words.
* `ContractIR.execCode` — runs code that stands in no module.

## Main results

* `ContractIR.call_high` — calling a function of a lowered module runs its code.
-/

set_option autoImplicit false

namespace ContractIR

/-! ## Words -/

/-- A bit pattern of a width. -/
structure Word where
  width : Nat
  bits : BitVec width
deriving DecidableEq

namespace Word

/-- The type of a word. -/
def ty (w : Word) : Ty := .int w.width

/-- The last binary digits of a number, in two's complement. -/
def ofInt (width : Nat) (n : Int) : Word := ⟨width, .ofInt width n⟩

/-- A number is represented in the width asked for. -/
@[simp] theorem width_ofInt (width : Nat) (n : Int) : (ofInt width n).width = width := rfl

/-- A represented number has the integer type of its width. -/
@[simp] theorem ty_ofInt (width : Nat) (n : Int) : (ofInt width n).ty = .int width := rfl

/-- Arithmetic on two words of one width. -/
def apply (op : Arithmetic) (a b : Word) : Option Word :=
  if h : b.width = a.width then
    match op with
    | .add => some ⟨a.width, a.bits + b.bits.cast h⟩
    | .mul => some ⟨a.width, a.bits * b.bits.cast h⟩
  else none

/-- The extension of a word to a greater width, with copies of the sign bit or with zeros. -/
def extend (signed : Bool) (width : Nat) (a : Word) : Option Word :=
  if a.width < width then
    some ⟨width, if signed then a.bits.signExtend width else a.bits.setWidth width⟩
  else none

end Word

/-! ## Frames -/

/-- What a value is while a function runs: a word, or the address of a slot. -/
inductive Datum where
  | word (w : Word)
  | address (slot : Nat)
deriving DecidableEq

/-- A slot of memory: the type of what it holds, and what it holds, if anything yet. -/
structure Slot where
  elem : Ty
  content : Option Word
deriving DecidableEq

/-- The state of a function that runs: its values and its slots. -/
structure Frame where
  values : ValueId → Option Datum
  slots : List Slot

namespace Frame

variable (s : Frame)

/-- The word that a value is. -/
def word? (v : ValueId) : Option Word :=
  match s.values v with
  | some (.word w) => some w
  | _ => none

/-- The address that a value is. -/
def address? (v : ValueId) : Option Nat :=
  match s.values v with
  | some (.address a) => some a
  | _ => none

/-- Gives a value. -/
def set (v : ValueId) (d : Datum) : Frame :=
  { s with values := fun u => if u = v then some d else s.values u }

/-- The frame of a function that was just called: its arguments, and no slots. -/
def enter (args : List ValueId) (words : List Word) : Frame where
  values v := (args.idxOf? v).bind fun i => words[i]?.map .word
  slots := []

/-- A value that was set has what it was set to. -/
@[simp] theorem values_set_self (v : ValueId) (d : Datum) : (s.set v d).values v = some d := by
  simp [set]

/-- Other values keep what they have. -/
theorem values_set_of_ne {u v : ValueId} (d : Datum) (h : u ≠ v) :
    (s.set v d).values u = s.values u := by
  simp [set, h]

/-- Setting a value keeps the slots. -/
@[simp] theorem slots_set (v : ValueId) (d : Datum) : (s.set v d).slots = s.slots := rfl

end Frame

/-- What an instruction leads to: the next one, or the end of the function. -/
inductive Effect where
  | next (s : Frame)
  | returned (words : List Word)

/-- What an instruction with given results does; nothing if it cannot run. -/
def Instr.exec : Instr → List ValueId → Frame → Option Effect
  | .constant n (.int w), [r], s => some (.next (s.set r (.word (.ofInt w n))))
  | .arith op lhs rhs ty, [r], s => do
    let a ← s.word? lhs
    let b ← s.word? rhs
    let c ← a.apply op b
    if c.ty = ty then some (.next (s.set r (.word c))) else none
  | .extend signed v (.int w), [r], s => do
    let a ← s.word? v
    let c ← a.extend signed w
    some (.next (s.set r (.word c)))
  | .alloca elem, [r], s =>
    some (.next { s.set r (.address s.slots.length) with slots := s.slots ++ [⟨elem, none⟩] })
  | .load cell ty, [r], s => do
    let a ← s.address? cell
    let slot ← s.slots[a]?
    let w ← slot.content
    if w.ty = ty then some (.next (s.set r (.word w))) else none
  | .store v cell, [], s => do
    let w ← s.word? v
    let a ← s.address? cell
    let slot ← s.slots[a]?
    if slot.elem = w.ty then
      some (.next { s with slots := s.slots.set a { slot with content := some w } })
    else none
  | .ret values, [], s => do
    let words ← values.mapM s.word?
    some (.returned words)
  | _, _, _ => none

/-! ## Levels -/

/-- A level of operations: what functions are, and which instruction an operation is. -/
structure Level where
  function : OpKind
  read : Module → OpId → Option Instr

namespace Level

/-- The number of a constant whose type is that of the result. -/
def constant? (o : Op) (ty : Ty) : Option Instr := do
  let (n, own) ← (o.attrs.get? AttrName.value).bind Attr.int?
  if own = ty then some (.constant n ty) else none

/-- The level of `func`, `arith` and `memref`.  The type of a cell says what it holds. -/
def high : Level where
  function := .func .func
  read m id :=
    let o := m.op id
    match o.kind, o.operands, m.typesOf o.results with
    | .arith .constant, [], [ty] => constant? o ty
    | .arith .addi, [lhs, rhs], [ty] => some (.arith .add lhs rhs ty)
    | .arith .muli, [lhs, rhs], [ty] => some (.arith .mul lhs rhs ty)
    | .arith .extsi, [v], [ty] => some (.extend true v ty)
    | .arith .extui, [v], [ty] => some (.extend false v ty)
    | .memref .alloca, [], [.memref elem] => some (.alloca elem)
    | .memref .load, [cell], [ty] => some (.load cell ty)
    | .memref .store, [v, cell], [] => some (.store v cell)
    | .func .ret, values, [] => some (.ret values)
    | _, _, _ => none

/-- The level of `llvm`.  A slot is known by a pointer to the stack; what it holds is an attribute
of the operation that makes it. -/
def low : Level where
  function := .llvm .func
  read m id :=
    let o := m.op id
    match o.kind, o.operands, m.typesOf o.results with
    | .llvm .constant, [], [ty] => constant? o ty
    | .llvm .add, [lhs, rhs], [ty] => some (.arith .add lhs rhs ty)
    | .llvm .mul, [lhs, rhs], [ty] => some (.arith .mul lhs rhs ty)
    | .llvm .sext, [v], [ty] => some (.extend true v ty)
    | .llvm .zext, [v], [ty] => some (.extend false v ty)
    | .llvm .alloca, [], [.ptr 0] =>
      ((o.attrs.get? AttrName.elemType).bind Attr.type?).map .alloca
    | .llvm .load, [ptr], [ty] => some (.load ptr ty)
    | .llvm .store, [v, ptr], [] => some (.store v ptr)
    | .llvm .ret, values, [] => some (.ret values)
    | _, _, _ => none

variable (level : Level) (m : Module)

/-- Runs operations one after the other up to a return. -/
def run : List OpId → Frame → Option (List Word)
  | [], _ => none
  | id :: ids, s => do
    let i ← level.read m id
    match ← i.exec (m.op id).results s with
    | .next t => run ids t
    | .returned words => some words

/-- Calls a function with words of the types that it takes. -/
def call (function : OpId) (words : List Word) : Option (List Word) := do
  let entry ← m.entryBlock? function
  let b := m.block entry
  if m.kind function = level.function ∧ m.typesOf b.args = words.map Word.ty then
    level.run m b.ops (.enter b.args words)
  else none

end Level

/-! ## Code without a module -/

/-- The results of a line, numbered from `next` on. -/
def CodeLine.results (l : CodeLine) (next : Nat) : List ValueId :=
  (List.range l.instr.count).map fun i => ⟨next + i⟩

/-- Runs code up to a return; its results are numbered from `next` on. -/
def execCode : Nat → List CodeLine → Frame → Option (List Word)
  | _, [], _ => none
  | next, l :: code, s => do
    match ← l.instr.exec (l.results next) s with
    | .next t => execCode (next + l.instr.count) code t
    | .returned words => some words

/-- Operations run like the code that they are, on a level that reads every line. -/
theorem run_of_alongCode {level : Level} {m : Module} {next : Nat} {ids : List OpId}
    {code : List CodeLine}
    (h : AlongCode (fun next id l => level.read m id = some l.instr ∧
      (m.op id).results = l.results next) next ids code) (s : Frame) :
    level.run m ids s = execCode next code s := by
  induction h generalizing s with
  | nil => rfl
  | @cons next id ids l code line _ ih =>
    rw [Level.run, execCode, line.1, line.2, Option.bind_eq_bind, Option.bind_some]
    cases l.instr.exec (l.results next) s with
    | none => rfl
    | some effect =>
      cases effect with
      | next t => exact ih t
      | returned words => rfl

/-- The operation of a line is read as the line.

**Proof sketch.** One case for each instruction: the kind, attributes, operands and result types
that a line is written with are those it is read from. -/
theorem read_high_line {m : Module} {b : BlockId} {next : Nat} {id : OpId} {l : CodeLine}
    (h : m.IsLine b next id l) : Level.high.read m id = some l.instr := by
  have htypes := h.typesOf_results
  simp only [Level.high, htypes]
  rw [h.op]
  obtain ⟨instr, location⟩ := l
  cases instr with
  | constant n ty =>
    have hread : Level.constant? (CodeLine.toOp ⟨.constant n ty, location⟩ next b) ty =
        some (.constant n ty) := if_pos rfl
    exact hread
  | arith op lhs rhs ty => cases op <;> rfl
  | extend signed v ty => cases signed <;> rfl
  | alloca elem => rfl
  | load cell ty => rfl
  | store v cell => rfl
  | ret values => rfl

/-- **Calling a function of a lowered module runs its code.** -/
theorem call_high {m : Module} {s : FunctionSite} {around : BlockId} (h : s.In m around)
    {words : List Word} (hwords : words.map Word.ty = s.code.signature.inputs) :
    Level.high.call m s.id words =
      execCode s.next s.code.code (.enter s.args words) := by
  have hline := h.body.imp fun next id l _ hl =>
    (⟨read_high_line hl, by rw [hl.op]; rfl⟩ :
      Level.high.read m id = some l.instr ∧ (m.op id).results = l.results next)
  rw [Level.call, h.entryBlock?_eq, Option.bind_eq_bind, Option.bind_some, h.block]
  rw [if_pos ⟨h.kind_eq, by rw [h.typesOf_args, hwords]⟩]
  exact run_of_alongCode hline _

end ContractIR
