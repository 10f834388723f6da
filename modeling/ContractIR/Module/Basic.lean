import ContractIR.Attr
import ContractIR.Location
import ContractIR.OpKind

/-!
# Modules

A module is a tree of operations: the body is a region, a region is a list of blocks, a block a
list of operations, and an operation may own regions.  Operations, blocks, regions and values are
numbered from zero in order of creation and refer to each other by number; numbers are never used
again, so an operation that was taken out of the tree can be looked at and put back.

Every link is stored at both ends: a block lists its operations and an operation names its block,
and so on upwards.  The functions here are the only ones that change links.

## Main definitions

* `ContractIR.OpId`, `BlockId`, `RegionId`, `ValueId` — numbers of the four kinds of things.
* `ContractIR.Op`, `Block`, `Region`, `Value`, `Module` — what they number.
* `ContractIR.Module.createOp`, `appendBlock` — new operations and blocks.
* `ContractIR.Module.insertOp`, `detachOp`, `takeBlocks` — putting operations and blocks in place.
-/

set_option autoImplicit false

namespace ContractIR

/-! ## Numbers -/

/-- Number of an operation. -/
structure OpId where
  index : Nat
deriving DecidableEq, Inhabited

/-- Number of a block. -/
structure BlockId where
  index : Nat
deriving DecidableEq, Inhabited

/-- Number of a region. -/
structure RegionId where
  index : Nat
deriving DecidableEq, Inhabited

/-- Number of a value. -/
structure ValueId where
  index : Nat
deriving DecidableEq, Inhabited

/-- The text of an operation's number. -/
def OpId.text (id : OpId) : String := "op" ++ toString id.index

/-- The text of a block's number. -/
def BlockId.text (id : BlockId) : String := "bb" ++ toString id.index

/-- The text of a region's number. -/
def RegionId.text (id : RegionId) : String := "region" ++ toString id.index

/-- The text of a value's number. -/
def ValueId.text (id : ValueId) : String := "v" ++ toString id.index

/-! ## What the numbers stand for -/

/-- An operation. -/
structure Op where
  kind : OpKind
  operands : List ValueId
  results : List ValueId
  regions : List RegionId
  successors : List BlockId
  attrs : AttrDict
  location : Location
  /-- The block that lists the operation. -/
  parent : Option BlockId
deriving DecidableEq, Inhabited

/-- A block: arguments, then operations that run one after the other. -/
structure Block where
  args : List ValueId
  ops : List OpId
  /-- The region that lists the block. -/
  parent : RegionId
deriving DecidableEq, Inhabited

/-- A region: a list of blocks, of which the first one is entered. -/
structure Region where
  blocks : List BlockId
  /-- The operation that owns the region; the body of the module has none. -/
  parent : Option OpId
deriving DecidableEq, Inhabited

/-- Where a value comes from. -/
inductive ValueDef where
  | result (op : OpId) (index : Nat)
  | arg (block : BlockId) (index : Nat)
deriving DecidableEq, Inhabited

/-- A value. -/
structure Value where
  ty : Ty
  origin : ValueDef
deriving DecidableEq, Inhabited

/-- The operations, blocks, regions and values of one compilation unit, by number. -/
structure Module where
  ops : Array Op
  blocks : Array Block
  regions : Array Region
  values : Array Value
  location : Location
deriving DecidableEq, Inhabited

namespace Module

/-- The module with one empty block in its body. -/
def new (location : Location) : Module where
  ops := #[]
  blocks := #[⟨[], [], ⟨0⟩⟩]
  regions := #[⟨[⟨0⟩], none⟩]
  values := #[]
  location := location

/-! ## Looking things up -/

section Access

variable (m : Module)

/-- The operation with a number. -/
def op (id : OpId) : Op := m.ops.getD id.index default

/-- The block with a number. -/
def block (id : BlockId) : Block := m.blocks.getD id.index default

/-- The region with a number. -/
def region (id : RegionId) : Region := m.regions.getD id.index default

/-- The value with a number. -/
def value (id : ValueId) : Value := m.values.getD id.index default

/-- The kind of an operation. -/
def kind (id : OpId) : OpKind := (m.op id).kind

/-- The type of a value. -/
def typeOf (id : ValueId) : Ty := (m.value id).ty

/-- The types of some values. -/
def typesOf (ids : List ValueId) : List Ty := ids.map m.typeOf

/-- The region that holds the whole module. -/
def body : RegionId := ⟨0⟩

/-- Whether the body has a block. -/
def hasBody : Bool := !(m.region body).blocks.isEmpty

/-- The first block of the body. -/
def bodyBlock : BlockId := ((m.region body).blocks.head?).getD default

/-- The operations that stand directly in the body's first block. -/
def topLevel : List OpId := (m.block m.bodyBlock).ops

/-- A result of an operation. -/
def result? (id : OpId) (index : Nat) : Option ValueId := (m.op id).results[index]?

/-- An attribute of an operation. -/
def attr? (id : OpId) (name : String) : Option Attr := (m.op id).attrs.get? name

/-- The symbol that an operation declares. -/
def symName? (id : OpId) : Option String := (m.attr? id AttrName.symName).bind Attr.str?

/-- The signature of a function. -/
def signature? (id : OpId) : Option Signature :=
  ((m.attr? id AttrName.functionType).bind Attr.type?).bind Ty.signature?

/-- The function that a call names. -/
def callee? (id : OpId) : Option String := (m.attr? id AttrName.callee).bind Attr.symbol?

/-- The first block of an operation's first region. -/
def entryBlock? (id : OpId) : Option BlockId :=
  (m.op id).regions.head?.bind fun r => (m.region r).blocks.head?

/-- The operation that owns the region around an operation. -/
def parentOp? (id : OpId) : Option OpId :=
  (m.op id).parent.bind fun b => (m.region (m.block b).parent).parent

/-- The place of an operation in the list of its block. -/
def indexOf? (id : OpId) : Option Nat :=
  (m.op id).parent.bind fun b => (m.block b).ops.idxOf? id

end Access

/-! ## Changing single things -/

section Update

variable (m : Module)

/-- Changes one operation. -/
def modifyOp (id : OpId) (f : Op → Op) : Module := { m with ops := m.ops.modify id.index f }

/-- Changes one block. -/
def modifyBlock (id : BlockId) (f : Block → Block) : Module :=
  { m with blocks := m.blocks.modify id.index f }

/-- Changes one region. -/
def modifyRegion (id : RegionId) (f : Region → Region) : Module :=
  { m with regions := m.regions.modify id.index f }

/-- Gives a value another type. -/
def setType (id : ValueId) (ty : Ty) : Module :=
  { m with values := m.values.modify id.index fun v => { v with ty := ty } }

/-- Sets an attribute of an operation. -/
def setAttr (id : OpId) (name : String) (value : Attr) : Module :=
  m.modifyOp id fun o => { o with attrs := o.attrs.set name value }

/-- Gives an operation another kind. -/
def setKind (id : OpId) (kind : OpKind) : Module := m.modifyOp id fun o => { o with kind := kind }

/-- Gives an operation other operands. -/
def setOperands (id : OpId) (operands : List ValueId) : Module :=
  m.modifyOp id fun o => { o with operands := operands }

/-- Gives an operation other successors. -/
def setSuccessors (id : OpId) (successors : List BlockId) : Module :=
  m.modifyOp id fun o => { o with successors := successors }

end Update

/-! ## New things -/

/-- What a new operation is made of. -/
structure OpSpec where
  kind : OpKind
  operands : List ValueId := []
  results : List Ty := []
  attrs : AttrDict := {}
  regions : Nat := 0
deriving Inhabited

/-- Creates an operation that stands in no block yet, with its results and its empty regions. -/
def createOp (m : Module) (spec : OpSpec) (location : Location) : OpId × Module :=
  let id : OpId := ⟨m.ops.size⟩
  let op : Op :=
    { kind := spec.kind
      operands := spec.operands
      results := (List.range spec.results.length).map fun i => ⟨m.values.size + i⟩
      regions := (List.range spec.regions).map fun i => ⟨m.regions.size + i⟩
      successors := []
      attrs := spec.attrs
      location := location
      parent := none }
  (id, { m with
    ops := m.ops.push op
    values := m.values ++ (spec.results.mapIdx fun i ty => ⟨ty, .result id i⟩).toArray
    regions := m.regions ++ (List.replicate spec.regions ⟨[], some id⟩).toArray })

/-- Creates a block with arguments of the given types at the end of a region. -/
def appendBlock (m : Module) (region : RegionId) (argTypes : List Ty) : BlockId × Module :=
  let id : BlockId := ⟨m.blocks.size⟩
  let block : Block :=
    { args := (List.range argTypes.length).map fun i => ⟨m.values.size + i⟩
      ops := []
      parent := region }
  let grown : Module :=
    { m with
      blocks := m.blocks.push block
      values := m.values ++ (argTypes.mapIdx fun i ty => ⟨ty, .arg id i⟩).toArray }
  (id, grown.modifyRegion region fun r => { r with blocks := r.blocks ++ [id] })

/-! ## Putting things in place -/

/-- Puts `id` before the operation that has place `index` in a list, and at the end when there is
no such place. -/
def placeAt (index : Option Nat) (id : OpId) (ops : List OpId) : List OpId :=
  match index with
  | some i => ops.take i ++ id :: ops.drop i
  | none => ops ++ [id]

/-- Puts an operation that stands in no block into a block. -/
def insertOp (m : Module) (block : BlockId) (index : Option Nat) (id : OpId) : Module :=
  (m.modifyBlock block fun b => { b with ops := placeAt index id b.ops }).modifyOp id
    fun o => { o with parent := some block }

/-- Takes an operation out of its block. -/
def detachOp (m : Module) (id : OpId) : Module :=
  match (m.op id).parent with
  | none => m
  | some block =>
    (m.modifyBlock block fun b => { b with ops := b.ops.filter fun o => decide (o ≠ id) }).modifyOp
      id fun o => { o with parent := none }

/-- Moves every block of one region to the end of another one. -/
def takeBlocks (m : Module) (source target : RegionId) : Module :=
  let moved := (m.region source).blocks
  let emptied := m.modifyRegion source fun r => { r with blocks := [] }
  let reparented := moved.foldl (fun n b => n.modifyBlock b fun x => { x with parent := target })
    emptied
  reparented.modifyRegion target fun r => { r with blocks := r.blocks ++ moved }

end Module

end ContractIR
