import ContractIR.Verifier.Rules

/-!
# The verifier

A module is accepted if no scope declares a symbol twice, terminators stand last in their blocks,
every operation satisfies the rule of its kind, and every operand is defined where it is used.

## Main definitions

* `ContractIR.Module.dominates` — whether a value is defined at an operation.
* `ContractIR.Module.verify` — the whole check.
-/

set_option autoImplicit false

namespace ContractIR

namespace Module

variable (m : Module)

/-! ## Definition before use -/

/-- Where a value is defined: the block, and the place of the defining operation in it; a block
argument is defined before the first place.  Results of operations that stand in no block are
defined nowhere. -/
def definedAt? (v : ValueId) : Option (BlockId × Option Nat) :=
  match (m.value v).origin with
  | .arg b _ => some (b, none)
  | .result id _ =>
    match (m.op id).parent, m.indexOf? id with
    | some b, some i => some (b, some i)
    | _, _ => none

/-- Whether what is defined at place `index` of `block` is known at an operation, or at the
operation around it that stands in the same region, up to a number of steps outwards.  Inside the
block it is known later on; outside, only if the block is the first one of its region.  No step
leads out of an operation that is isolated from above. -/
def reaches (block : BlockId) (index : Option Nat) : Nat → OpId → Bool
  | 0, _ => false
  | depth + 1, user =>
    match (m.op user).parent with
    | none => false
    | some here =>
      let r := (m.block here).parent
      if r = (m.block block).parent then
        if here = block then
          match index, m.indexOf? user with
          | none, _ => true
          | some i, some j => decide (i < j)
          | some _, none => false
        else decide ((m.region r).blocks.head? = some block)
      else
        match (m.region r).parent with
        | some p => if (m.kind p).isIsolated then false else reaches block index depth p
        | none => false

/-- Whether a value is defined at an operation. -/
def dominates (v : ValueId) (user : OpId) : Bool :=
  match m.definedAt? v with
  | some (block, index) => m.reaches block index m.depthBound user
  | none => false

/-- The first value of a list that is not defined at an operation is an error. -/
def verifyDominance (id : OpId) : Nat → List ValueId → Check Unit
  | _, [] => .ok ()
  | index, v :: vs =>
    if m.dominates v id then verifyDominance id (index + 1) vs
    else .error (.dominance (m.kind id) (m.op id).location index)

/-! ## The whole module -/

/-- A terminator is the last operation of its block. -/
def verifyPlacement (id : OpId) : Check Unit :=
  let last := (m.op id).parent.bind fun b => (m.block b).ops.getLast?
  if (m.kind id).isTerminator = true ∧ last ≠ some id then
    .error (.misplacedTerminator (m.kind id) (m.op id).location)
  else .ok ()

/-- An operation satisfies the rule of its kind and its operands are defined. -/
def verifyUse (id : OpId) : Check Unit := do
  m.verifyOp id
  m.verifyDominance id 0 (m.op id).operands

/-- Checks every member of a list up to the first error. -/
def verifyEach (check : OpId → Check Unit) : List OpId → Check Unit
  | [] => .ok ()
  | id :: ids => do
    check id
    verifyEach check ids

/-- Checks a module: the symbols of the body, then the place of every operation, then operation by
operation its rule and its operands. -/
def verify : Check Unit := do
  m.verifySymbols body
  verifyEach m.verifyPlacement m.walk
  verifyEach m.verifyUse m.walk

end Module

end ContractIR
