import ContractIR.Module.Basic

/-!
# Walking a module

Downwards, a walk lists operations before the ones nested in them.  Upwards, the ancestors of an
operation are the operations around it, nearest first.  Nesting is never deeper than the number of
operations, which bounds both directions.

## Main definitions

* `ContractIR.Module.walk`, `walkOp` — every operation of the tree, every operation of a subtree.
* `ContractIR.Module.ancestors`, `isAttached` — the way up, and whether it ends at the body.
* `ContractIR.Module.symbolsIn`, `lookup?`, `lookupTop?` — symbols and their scopes.
* `ContractIR.Module.users` — the operations that read a value.
-/

set_option autoImplicit false

namespace ContractIR

namespace Module

variable (m : Module)

/-- A bound on the depth of nesting: a chain of nested operations has no repetition. -/
def depthBound : Nat := m.ops.size + 1

/-! ## Downwards -/

/-- The operations nested in a region up to a depth, each before those nested in it. -/
def walkRegion : Nat → RegionId → List OpId
  | 0, _ => []
  | depth + 1, r =>
    (m.region r).blocks.flatMap fun b =>
      (m.block b).ops.flatMap fun o => o :: (m.op o).regions.flatMap (walkRegion depth)

/-- Every operation of the tree, each before those nested in it. -/
def walk : List OpId := m.walkRegion m.depthBound body

/-- An operation, then every operation nested in it. -/
def walkOp (id : OpId) : List OpId := id :: (m.op id).regions.flatMap (m.walkRegion m.depthBound)

/-- The operations of the tree that read a value. -/
def users (v : ValueId) : List OpId := m.walk.filter fun o => (m.op o).operands.contains v

/-- The operations of the tree that have a kind. -/
def ofKind (kind : OpKind) : List OpId := m.walk.filter fun o => decide (m.kind o = kind)

/-! ## Upwards -/

/-- The operations around an operation, nearest first, up to a bound on their number. -/
def ancestorsWithin : Nat → OpId → List OpId
  | 0, _ => []
  | depth + 1, id =>
    match m.parentOp? id with
    | some p => p :: ancestorsWithin depth p
    | none => []

/-- The operations around an operation, nearest first. -/
def ancestors (id : OpId) : List OpId := m.ancestorsWithin m.depthBound id

/-- Whether the way up from an operation ends at the body within a number of steps. -/
def isAttachedWithin : Nat → OpId → Bool
  | 0, _ => false
  | depth + 1, id =>
    match (m.op id).parent with
    | none => false
    | some b =>
      let r := (m.block b).parent
      if r = body then true
      else
        match (m.region r).parent with
        | some p => isAttachedWithin depth p
        | none => false

/-- Whether an operation belongs to the tree. -/
def isAttached (id : OpId) : Bool := m.isAttachedWithin m.depthBound id

/-! ## Symbols -/

/-- The symbols that stand directly in a region, with their names. -/
def symbolsIn (r : RegionId) : List (OpId × String) :=
  (m.region r).blocks.flatMap fun b =>
    (m.block b).ops.filterMap fun o =>
      if (m.kind o).isSymbol then (m.symName? o).map fun name => (o, name) else none

/-- The first symbol of a name that stands directly in a region. -/
def symbolIn? (r : RegionId) (name : String) : Option OpId :=
  ((m.symbolsIn r).find? fun s => s.2 == name).map Prod.fst

/-- The symbol of a name in the body. -/
def lookupTop? (name : String) : Option OpId := m.symbolIn? body name

/-- The symbol that `name` means at an operation: that of the nearest scope around it which has
one, and the body is the outermost scope. -/
def lookup? (id : OpId) (name : String) : Option OpId :=
  let scopes := (m.ancestors id).filter fun o => (m.kind o).isSymbolTable
  (scopes.findSome? fun o => (m.op o).regions.findSome? fun r => m.symbolIn? r name).or
    (m.lookupTop? name)

end Module

end ContractIR
