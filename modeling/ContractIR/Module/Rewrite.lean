import ContractIR.Module.Error
import ContractIR.Module.Traversal

/-!
# Rewriting a module

Replacing, erasing and moving operations of a module.  A step that fails reports its error and the
module that it leaves behind.

## Main definitions

* `ContractIR.Rewrite` — steps that change a module and may fail.
* `ContractIR.Module.replaceUses`, `eraseOp`, `replaceOp` — taking operations out of use.
* `ContractIR.Module.moveToEnd`, `moveBefore`, `moveWhere` — moving operations.
-/

set_option autoImplicit false

namespace ContractIR

/-- A step that changes a module and may fail. -/
abbrev Rewrite := EStateM IrError Module

namespace Module

/-! ## Taking operations out of use -/

/-- Lets every operation of the tree read `new` where it read `old`. -/
def replaceUses (m : Module) (old new : ValueId) : Module :=
  m.walk.foldl
    (fun n o => n.modifyOp o fun x =>
      { x with operands := x.operands.map fun v => if v = old then new else v }) m

/-- A use that forbids to erase some operations: one of them, a result of it, and an operation of
the tree outside them that reads the result. -/
def outsideUse? (m : Module) (nested : List OpId) : Option (OpId × ValueId × OpId) :=
  nested.findSome? fun inner =>
    (m.op inner).results.findSome? fun v =>
      ((m.users v).find? fun user => !nested.contains user).map fun user => (inner, v, user)

/-- Takes an operation, with everything nested in it, out of the tree.  Fails while an operation
outside reads a result from inside. -/
def eraseOp (id : OpId) : Rewrite Unit := do
  let m ← get
  match m.outsideUse? (m.walkOp id) with
  | some (inner, v, user) =>
    throw (.instruction (.stillUsed (m.kind inner) v (m.kind user)))
  | none => set (m.detachOp id)

/-- Lets the users of an operation's results read other values, then erases the operation. -/
def replaceOp (id : OpId) (values : List ValueId) : Rewrite Unit := do
  let m ← get
  let results := (m.op id).results
  if results.length = values.length then
    set ((results.zip values).foldl (fun n p => n.replaceUses p.1 p.2) m)
    eraseOp id
  else
    throw (.instruction (.resultCount (m.kind id) results.length values.length))

/-! ## Moving operations -/

/-- Puts an operation into a block; an operation that stands in a block is refused. -/
def placeOp (block : BlockId) (index : Option Nat) (id : OpId) : Rewrite Unit := do
  let m ← get
  match (m.op id).parent with
  | some _ => throw (.alreadyPlaced id)
  | none => set (m.insertOp block index id)

/-- Moves an operation to the end of a block. -/
def moveToEnd (m : Module) (id : OpId) (block : BlockId) : Module :=
  (m.detachOp id).insertOp block none id

/-- Moves an operation to the place before another one. -/
def moveBefore (id anchor : OpId) : Rewrite Unit := do
  let m ← get
  match (m.op anchor).parent with
  | none => throw (.instruction (.detachedAnchor anchor))
  | some block =>
    let rest := m.detachOp id
    set (rest.insertOp block (rest.indexOf? anchor) id)

/-- Moves the operations of a block that satisfy a test to the end of another block, in order, and
lists them. -/
def moveWhere (m : Module) (source target : BlockId) (test : Module → OpId → Bool) :
    List OpId × Module :=
  let selected := (m.block source).ops.filter (test m)
  (selected, selected.foldl (fun n o => n.moveToEnd o target) m)

end Module

end ContractIR
