import ContractIR.Module.Rewrite

/-!
# Builders

A builder is a module under construction together with the place where the next operation goes and
the location that it gets.

## Main definitions

* `ContractIR.InsertPoint`, `ContractIR.Builder` — a place in a block, and the builder.
* `ContractIR.Build` — steps that use a builder and may fail.
* `ContractIR.Build.op` — creates an operation at the insertion point.
* `ContractIR.Build.appendBlock`, `ContractIR.Build.place` — blocks, and operations made before.
-/

set_option autoImplicit false

namespace ContractIR

/-- A place in a block: before the operation of the given index, or at the end without one. -/
structure InsertPoint where
  block : BlockId
  index : Option Nat
deriving DecidableEq, Inhabited

/-- The place behind an operation that was put at this place. -/
def InsertPoint.next (p : InsertPoint) : InsertPoint := { p with index := p.index.map (· + 1) }

/-- A module under construction, a place in it, and the location of new operations. -/
structure Builder where
  ir : Module
  point : Option InsertPoint
  location : Location
deriving DecidableEq, Inhabited

namespace Builder

/-- A builder at the end of a block, without a location. -/
def atEnd (m : Module) (block : BlockId) : Builder := ⟨m, some ⟨block, none⟩, .unknown⟩

/-- A builder at the end of the body, without a location. -/
def new (m : Module) : Builder := atEnd m m.bodyBlock

end Builder

/-- A step that uses a builder and may fail. -/
abbrev Build := EStateM IrError Builder

namespace Build

/-! ## The place and the location -/

/-- The module as it stands. -/
def ir : Build Module := do return (← get).ir

/-- Sets the location of the operations created next. -/
def setLocation (location : Location) : Build Unit :=
  modify fun b => { b with location := location }

/-- Goes to the end of a block. -/
def toEnd (block : BlockId) : Build Unit :=
  modify fun b => { b with point := some ⟨block, none⟩ }

/-- Goes to the start of a block. -/
def toStart (block : BlockId) : Build Unit :=
  modify fun b => { b with point := some ⟨block, some 0⟩ }

/-- Goes to no place at all. -/
def nowhere : Build Unit := modify fun b => { b with point := none }

/-- The block of an operation and its place there. -/
def positionOf (id : OpId) : Build (BlockId × Nat) := do
  let m ← ir
  match (m.op id).parent with
  | none => throw (.place (.detached id))
  | some block =>
    match m.indexOf? id with
    | none => throw (.place (.notListed id block))
    | some index => return (block, index)

/-- Goes to the place before an operation. -/
def before (id : OpId) : Build Unit := do
  let (block, index) ← positionOf id
  modify fun b => { b with point := some ⟨block, some index⟩ }

/-- Goes to the place behind an operation. -/
def after (id : OpId) : Build Unit := do
  let (block, index) ← positionOf id
  modify fun b => { b with point := some ⟨block, some (index + 1)⟩ }

/-! ## Operations and blocks -/

/-- Puts an operation that was made before at the insertion point. -/
def place (id : OpId) : Build Unit := do
  let b ← get
  match b.point with
  | none => throw (.place .noInsertionPoint)
  | some p =>
    match (b.ir.op id).parent with
    | some _ => throw (.alreadyPlaced id)
    | none => set { b with ir := b.ir.insertOp p.block p.index id, point := some p.next }

/-- Creates an operation at the insertion point and steps behind it. -/
def op (spec : Module.OpSpec) : Build OpId := do
  let b ← get
  match b.point with
  | none => throw (.place (.unplaced spec.kind))
  | some p =>
    let made := b.ir.createOp spec b.location
    set { b with ir := made.2.insertOp p.block p.index made.1, point := some p.next }
    return made.1

/-- Creates an operation with one result and gives that result. -/
def value (spec : Module.OpSpec) : Build ValueId := do
  let id ← op spec
  let m ← ir
  return (m.op id).results.headD default

/-- Adds a block to a region of an operation, chosen by its place in the operation's list. -/
def appendBlock (id : OpId) (index : Nat) (argTypes : List Ty) : Build BlockId := do
  let b ← get
  match (b.ir.op id).regions[index]? with
  | none => throw (.place (.noRegion (b.ir.kind id) index))
  | some r =>
    let made := b.ir.appendBlock r argTypes
    set { b with ir := made.2 }
    return made.1

/-- The arguments of a block. -/
def argsOf (block : BlockId) : Build (List ValueId) := do return ((← ir).block block).args

/-- The type of a value. -/
def typeOf (v : ValueId) : Build Ty := do return (← ir).typeOf v

/-- Changes the module without moving the insertion point. -/
def edit (f : Module → Module) : Build Unit := modify fun b => { b with ir := f b.ir }

end Build

end ContractIR
