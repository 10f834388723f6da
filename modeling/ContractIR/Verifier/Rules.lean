import ContractIR.Builder.Ops
import ContractIR.Module.Traversal
import ContractIR.Verifier.Error

/-!
# Rules of the operations

What an operation must look like, kind by kind: how many operands, results and regions it has,
which types they have, which attributes it carries and what its symbols and successors mean.

## Main definitions

* `ContractIR.Module.verifyOp` — the rule of an operation's kind.
* `ContractIR.Module.verifySymbols` — no two symbols of one scope share a name.
-/

set_option autoImplicit false

namespace ContractIR

/-- The outcome of a check. -/
abbrev Check := Except VerifyError

namespace Module

variable (m : Module)

/-! ## Parts of rules -/

/-- Rejects an operation. -/
def reject {α : Type} (id : OpId) (fault : OpFault) : Check α :=
  .error (.invalidOp (m.kind id) (m.op id).location fault)

/-- Accepts an operation if a condition holds. -/
def require (id : OpId) (condition : Bool) (fault : OpFault) : Check Unit :=
  if condition then .ok () else m.reject id fault

/-- What is there, or else a rejection. -/
def demand {α : Type} (id : OpId) (found : Option α) (fault : OpFault) : Check α :=
  match found with
  | some a => .ok a
  | none => m.reject id fault

/-- The numbers of operands, results and regions, checked in this order. -/
def verifyCounts (id : OpId) (operands results regions : Nat) : Check Unit := do
  let o := m.op id
  m.require id (decide (o.operands.length = operands)) (.operandCount operands o.operands.length)
  m.require id (decide (o.results.length = results)) (.resultCount results o.results.length)
  m.require id (decide (o.regions.length = regions)) (.regionCount regions o.regions.length)

/-- The type of an operand. -/
def operandType (id : OpId) (index : Nat) : Ty := m.typeOf ((m.op id).operands.getD index default)

/-- The type of the first result. -/
def resultType (id : OpId) : Ty := m.typeOf ((m.op id).results.headD default)

/-- An operand is a pointer. -/
def verifyPointer (id : OpId) (index : Nat) : Check Unit :=
  m.require id (m.operandType id index).isPtr (.operandNotPointer index (m.operandType id index))

/-- An operation says what type its address points at. -/
def verifyElemType (id : OpId) : Check Unit :=
  m.require id ((m.attr? id AttrName.elemType).bind Attr.type?).isSome .noElemType

/-- The first name of a list that occurs again later in it. -/
def repeated? (seen : List String) : List String → Option String
  | [] => none
  | name :: names => if seen.contains name then some name else repeated? (name :: seen) names

/-- No two symbols that stand directly in a region share a name. -/
def verifySymbols (r : RegionId) : Check Unit :=
  match repeated? [] ((m.symbolsIn r).map Prod.snd) with
  | some name => .error (.duplicateSymbol name)
  | none => .ok ()

/-- A symbol that is not there, or is not what it is used as. -/
def undefined {α : Type} (id : OpId) (name : String) : Check α :=
  .error (.undefinedSymbol (m.kind id) (m.op id).location name)

/-! ## Rules -/

/-- The rule of containers: a name, and one block in which no two symbols share a name. -/
def verifyContainer (id : OpId) : Check Unit := do
  m.verifyCounts id 0 0 1
  m.require id (m.symName? id).isSome .noSymbolName
  let r := (m.op id).regions.headD default
  m.require id (decide ((m.region r).blocks.length = 1)) .bodyBlocks
  m.verifySymbols r

/-- Whether a block ends with a terminator. -/
def isTerminated (b : BlockId) : Bool :=
  match (m.block b).ops.getLast? with
  | some last => (m.kind last).isTerminator
  | none => false

/-- The first block of a list that does not end with a terminator is an error. -/
def verifyTerminated (id : OpId) (name : String) : List BlockId → Check Unit
  | [] => .ok ()
  | b :: bs =>
    if m.isTerminated b then verifyTerminated id name bs
    else .error (.missingTerminator (m.kind id) name b)

/-- The rule of functions: a name and a signature; the entry block takes the inputs, and every
block ends with a terminator.  Only a function that may be a declaration has no block. -/
def verifyFunction (id : OpId) (needsBody : Bool) : Check Unit := do
  m.verifyCounts id 0 0 1
  let name ← m.demand id (m.symName? id) .noSymbolName
  let signature ← m.demand id (m.signature? id) .noFunctionType
  let blocks := (m.region ((m.op id).regions.headD default)).blocks
  match blocks with
  | [] => m.require id (!needsBody) (.noBody name)
  | entry :: _ =>
    m.require id (decide (m.typesOf (m.block entry).args = signature.inputs))
      (.entryArguments name)
    m.verifyTerminated id name blocks

/-- The rule of returns: the values that the function around them promises. -/
def verifyReturn (id : OpId) (function : OpKind) : Check Unit := do
  m.verifyCounts id (m.op id).operands.length 0 0
  let around ← m.demand id ((m.parentOp? id).filter fun p => decide (m.kind p = function))
    (.notNestedIn function)
  let signature ← m.demand around (m.signature? around) .noFunctionType
  m.require id (decide (m.typesOf (m.op id).operands = signature.results))
    (.returnTypes signature)

/-- The rule of calls: the callee is a function that is visible from the call and has its types. -/
def verifyCall (id : OpId) : Check Unit := do
  let callee ← m.demand id (m.callee? id) .noCallee
  match (m.lookup? id callee).filter fun t => (m.kind t).isFunction with
  | none => m.undefined id callee
  | some target =>
    let signature ← m.demand target (m.signature? target) .noFunctionType
    m.require id
      (decide (m.typesOf (m.op id).operands = signature.inputs) &&
        decide (m.typesOf (m.op id).results = signature.results))
      (.callTypes signature callee)

/-- Every successor of a branch belongs to the region around the branch. -/
def verifySuccessorRegions (id : OpId) (around : Option RegionId) : List BlockId → Check Unit
  | [] => .ok ()
  | b :: bs =>
    if some (m.block b).parent = around then verifySuccessorRegions id around bs
    else m.reject id (.successorRegion b)

/-- The rule of successors: a number of blocks of the region around the branch. -/
def verifySuccessors (id : OpId) (count : Nat) : Check Unit := do
  let o := m.op id
  m.require id (decide (o.successors.length = count)) (.successorCount count)
  m.verifySuccessorRegions id (o.parent.map fun b => (m.block b).parent) o.successors

/-- The first value of a list that is no word is an error. -/
def verifyWords (id : OpId) : List ValueId → Check Unit
  | [] => .ok ()
  | v :: vs =>
    if m.typeOf v = Ty.word then verifyWords id vs else m.reject id (.operandNotWord (m.typeOf v))

/-- The rule of constants: an integer attribute of the result's integer type. -/
def verifyConstant (id : OpId) : Check Unit := do
  m.verifyCounts id 0 1 0
  match (m.attr? id AttrName.value).bind Attr.int? with
  | none => m.reject id .constantValue
  | some (_, ty) =>
    m.require id (decide (ty = m.resultType id) && ty.isInt) (.constantType ty (m.resultType id))

/-- The rule of arithmetic: two integers and a result of one type. -/
def verifyBinary (id : OpId) : Check Unit := do
  m.verifyCounts id 2 1 0
  let lhs := m.operandType id 0
  let rhs := m.operandType id 1
  m.require id (lhs.isInt && decide (lhs = rhs) && decide (lhs = m.resultType id))
    (.binaryTypes lhs rhs (m.resultType id))

/-- The rule of comparisons: two integers of one type, a truth value, and a known predicate. -/
def verifyComparison (id : OpId) : Check Unit := do
  m.verifyCounts id 2 1 0
  let lhs := m.operandType id 0
  let rhs := m.operandType id 1
  m.require id (lhs.isInt && decide (lhs = rhs)) (.comparison lhs rhs)
  m.require id (decide (m.resultType id = Ty.i1)) .comparisonResult
  m.require id (((m.attr? id AttrName.predicate).bind Attr.str?).bind Predicate.ofName?).isSome
    .noPredicate

/-- The rule of extensions: from an integer to a wider one. -/
def verifyExtension (id : OpId) : Check Unit := do
  m.verifyCounts id 1 1 0
  m.require id (Build.widens (m.operandType id 0) (m.resultType id))
    (.notWidening (m.operandType id 0) (m.resultType id))

/-- Whether an attribute may initialize a global of a type. -/
def initializes (ty : Ty) : Attr → Bool
  | .zero t => decide (t = ty)
  | .int _ t => decide (t = ty)
  | _ => false

/-- The rule of globals: a type, a name, and an initial value of that type if there is one. -/
def verifyGlobal (id : OpId) : Check Unit := do
  m.verifyCounts id 0 0 0
  let ty ← m.demand id ((m.attr? id AttrName.globalType).bind Attr.type?) .noGlobalType
  m.require id (m.symName? id).isSome .noSymbolName
  match m.attr? id AttrName.value with
  | none => .ok ()
  | some value => m.require id (initializes ty value) (.initializer value ty)

/-- The rule of taken addresses: a pointer to a global that is visible. -/
def verifyAddressOf (id : OpId) : Check Unit := do
  m.verifyCounts id 0 1 0
  m.require id (m.resultType id).isPtr .resultNotPointer
  let name ← m.demand id ((m.attr? id AttrName.globalName).bind Attr.symbol?) .noGlobalName
  match (m.lookup? id name).filter fun t => decide (m.kind t = .llvm .global) with
  | none => m.undefined id name
  | some _ => .ok ()

/-- The rule of address arithmetic: a base pointer, integers, and a pointer of the base's type. -/
def verifyGep (id : OpId) : Check Unit := do
  let o := m.op id
  m.require id (decide (o.operands ≠ [] ∧ o.results.length = 1)) .elementShape
  m.verifyPointer id 0
  m.require id (decide (m.resultType id = m.operandType id 0)) .elementResult
  m.require id (o.operands.tail.all fun v => (m.typeOf v).isInt) .elementIndices
  m.verifyElemType id

/-- The rule of an operation's kind. -/
def verifyOp (id : OpId) : Check Unit := do
  match m.kind id with
  | .sol .contract | .sol .object => m.verifyContainer id
  | .sol .ret =>
    m.verifyCounts id 2 0 0
    m.verifyWords id (m.op id).operands
  | .func .func => m.verifyFunction id true
  | .llvm .func => m.verifyFunction id false
  | .func .ret => m.verifyReturn id (.func .func)
  | .llvm .ret => m.verifyReturn id (.llvm .func)
  | .func .call | .llvm .call => m.verifyCall id
  | .arith .constant | .llvm .constant => m.verifyConstant id
  | .arith .addi | .arith .muli | .arith .andi | .llvm .add | .llvm .mul | .llvm .and
  | .llvm .lshr => m.verifyBinary id
  | .arith .cmpi | .llvm .icmp => m.verifyComparison id
  | .arith .extsi | .arith .extui | .llvm .sext | .llvm .zext => m.verifyExtension id
  | .memref .alloca =>
    m.verifyCounts id 0 1 0
    m.require id (m.resultType id).element?.isSome .cellResult
  | .memref .load =>
    m.verifyCounts id 1 1 0
    m.require id (decide ((m.operandType id 0).element? = some (m.resultType id)))
      (.cellLoad (m.resultType id) (m.operandType id 0))
  | .memref .store =>
    m.verifyCounts id 2 0 0
    m.require id (decide ((m.operandType id 1).element? = some (m.operandType id 0)))
      (.cellStore (m.operandType id 0) (m.operandType id 1))
  | .llvm .global => m.verifyGlobal id
  | .llvm .addressOf => m.verifyAddressOf id
  | .llvm .load =>
    m.verifyCounts id 1 1 0
    m.verifyPointer id 0
  | .llvm .store =>
    m.verifyCounts id 2 0 0
    m.verifyPointer id 1
  | .llvm .alloca =>
    m.verifyCounts id 0 1 0
    m.verifyElemType id
    m.require id (m.resultType id).isPtr .resultNotPointer
  | .llvm .ptrToInt =>
    m.verifyCounts id 1 1 0
    m.verifyPointer id 0
    m.require id (m.resultType id).isInt .resultNotInteger
  | .llvm .intToPtr =>
    m.verifyCounts id 1 1 0
    m.require id ((m.operandType id 0).isInt && (m.resultType id).isPtr) .notIntToPtr
  | .llvm .gep => m.verifyGep id
  | .llvm .unreachable => m.verifyCounts id 0 0 0
  | .llvm .condBr =>
    m.verifyCounts id 1 0 0
    m.require id (decide (m.operandType id 0 = Ty.i1)) .condition
    m.verifySuccessors id 2
  | .llvm .br =>
    m.verifyCounts id 0 0 0
    m.verifySuccessors id 1

end Module

end ContractIR
