import ContractIR.Builder.Basic

/-!
# Building the operations of the dialects

One function per operation.  Each checks the types of its operands before it creates anything, so
that a refused operation leaves no trace.

## Main definitions

* `ContractIR.Build.container`, `solReturn` — the `sol` dialect.
* `ContractIR.Build.func`, `funcReturn`, `funcCall` — the `func` dialect.
* `ContractIR.Build.constant`, `binary`, `cmpi`, `extend` — the `arith` dialect.
* `ContractIR.Build.allocaCell`, `loadCell`, `storeCell` — the `memref` dialect.
* `ContractIR.Build.Llvm` — the `llvm` dialect.
-/

set_option autoImplicit false

namespace ContractIR

namespace Build

/-! ## Checks -/

/-- The common type of two integers; any other pair of values is refused. -/
def sameInteger (kind : OpKind) (lhs rhs : ValueId) : Build Ty := do
  let left ← typeOf lhs
  let right ← typeOf rhs
  if left.isInt = true ∧ left = right then return left
  else throw (.type (.notSameInteger kind left right))

/-- Whether `target` is a wider integer type than `source`. -/
def widens (source target : Ty) : Bool :=
  match source.width?, target.width? with
  | some m, some n => decide (m < n)
  | _, _ => false

/-- Refuses every type but a wider integer type than that of an integer. -/
def checkWidening (kind : OpKind) (v : ValueId) (target : Ty) : Build Unit := do
  let source ← typeOf v
  if widens source target then return ()
  else throw (.type (.notWidening kind source target))

/-! ## `sol` -/

/-- Creates a container of a given name with an empty body. -/
def container (kind : SolOp) (name : String) : Build (OpId × BlockId) := do
  if (OpKind.sol kind).isContainer then
    let id ← op
      { kind := .sol kind, attrs := .ofList [(AttrName.symName, .str name)], regions := 1 }
    let body ← appendBlock id 0 []
    return (id, body)
  else throw (.instruction (.notContainer (.sol kind)))

/-- Creates the return of a stretch of memory from contract code. -/
def solReturn (offset length : ValueId) : Build OpId := do
  let _ ← sameInteger (.sol .ret) offset length
  op { kind := .sol .ret, operands := [offset, length] }

/-! ## `func` -/

/-- Creates a function whose entry block takes its inputs. -/
def func (name : String) (signature : Signature) : Build (OpId × BlockId) := do
  let id ← op
    { kind := .func .func
      attrs := .ofList
        [(AttrName.symName, .str name), (AttrName.functionType, .type signature.toTy)]
      regions := 1 }
  let entry ← appendBlock id 0 signature.inputs
  return (id, entry)

/-- Creates the return of some values from a function. -/
def funcReturn (values : List ValueId) : Build OpId := op { kind := .func .ret, operands := values }

/-- Creates a call. -/
def funcCall (callee : String) (args : List ValueId) (results : List Ty) : Build OpId :=
  op
    { kind := .func .call
      operands := args
      results := results
      attrs := .ofList [(AttrName.callee, .symbol callee)] }

/-! ## `arith` -/

/-- Creates an integer constant of a kind. -/
def integer (kind : OpKind) (n : Int) (ty : Ty) : Build ValueId := do
  if ty.isInt then
    value { kind := kind, results := [ty], attrs := .ofList [(AttrName.value, .int n ty)] }
  else throw (.type (.constant ty))

/-- Creates an integer constant. -/
def constant (n : Int) (ty : Ty) : Build ValueId := integer (.arith .constant) n ty

/-- Creates an operation on two integers of one type, with a result of that type. -/
def binary (kind : OpKind) (lhs rhs : ValueId) : Build ValueId := do
  let ty ← sameInteger kind lhs rhs
  value { kind := kind, operands := [lhs, rhs], results := [ty] }

/-- Creates a sum. -/
def addi (lhs rhs : ValueId) : Build ValueId := binary (.arith .addi) lhs rhs

/-- Creates a product. -/
def muli (lhs rhs : ValueId) : Build ValueId := binary (.arith .muli) lhs rhs

/-- Creates a bitwise conjunction. -/
def andi (lhs rhs : ValueId) : Build ValueId := binary (.arith .andi) lhs rhs

/-- Creates a comparison of a kind. -/
def compare (kind : OpKind) (p : Predicate) (lhs rhs : ValueId) : Build ValueId := do
  let _ ← sameInteger kind lhs rhs
  value
    { kind := kind
      operands := [lhs, rhs]
      results := [Ty.i1]
      attrs := .ofList [(AttrName.predicate, p.toAttr)] }

/-- Creates a comparison. -/
def cmpi (p : Predicate) (lhs rhs : ValueId) : Build ValueId := compare (.arith .cmpi) p lhs rhs

/-- Creates an extension of a kind to a wider type. -/
def extend (kind : OpKind) (v : ValueId) (target : Ty) : Build ValueId := do
  checkWidening kind v target
  value { kind := kind, operands := [v], results := [target] }

/-- Creates a sign extension. -/
def extsi (v : ValueId) (target : Ty) : Build ValueId := extend (.arith .extsi) v target

/-- Creates a zero extension. -/
def extui (v : ValueId) (target : Ty) : Build ValueId := extend (.arith .extui) v target

/-! ## `memref` -/

/-- Creates a memory cell. -/
def allocaCell (elem : Ty) : Build ValueId :=
  value { kind := .memref .alloca, results := [.memref elem] }

/-- Creates the reading of a cell. -/
def loadCell (cell : ValueId) : Build ValueId := do
  let ty ← typeOf cell
  match ty.element? with
  | some elem => value { kind := .memref .load, operands := [cell], results := [elem] }
  | none => throw (.type (.cellLoad ty))

/-- Creates the writing of a value to a cell. -/
def storeCell (v cell : ValueId) : Build OpId := do
  let cellTy ← typeOf cell
  let ty ← typeOf v
  if cellTy.element? = some ty then op { kind := .memref .store, operands := [v, cell] }
  else throw (.type (.cellStore ty cellTy))

/-! ## `llvm` -/

namespace Llvm

/-- Creates a function; one without a body is a declaration and gets no block. -/
def func (name : String) (signature : Signature) (linkage : String) (hasBody : Bool) :
    Build (OpId × Option BlockId) := do
  let id ← op
    { kind := .llvm .func
      attrs := .ofList
        [(AttrName.symName, .str name), (AttrName.functionType, .type signature.toTy),
          (AttrName.linkage, .str linkage)]
      regions := 1 }
  if hasBody then
    let entry ← appendBlock id 0 signature.inputs
    return (id, some entry)
  else return (id, none)

/-- Creates a global, with or without an initial value. -/
def global (name : String) (ty : Ty) (linkage : String) (start : Option Attr) : Build OpId :=
  op
    { kind := .llvm .global
      attrs := .ofList
        ([(AttrName.symName, .str name), (AttrName.globalType, .type ty),
            (AttrName.linkage, .str linkage)] ++
          (start.map fun a => (AttrName.value, a)).toList) }

/-- Creates the taking of a global's address. -/
def addressOf (name : String) (ptrTy : Ty) : Build ValueId :=
  value
    { kind := .llvm .addressOf
      results := [ptrTy]
      attrs := .ofList [(AttrName.globalName, .symbol name)] }

/-- Creates an integer constant. -/
def constant (n : Int) (ty : Ty) : Build ValueId := integer (.llvm .constant) n ty

/-- Whether an operation takes two integers to one of the same type. -/
def isBinary : LlvmOp → Bool
  | .add | .mul | .and | .lshr => true
  | _ => false

/-- Creates an operation on two integers of one type. -/
def binary (kind : LlvmOp) (lhs rhs : ValueId) : Build ValueId := do
  if isBinary kind then Build.binary (.llvm kind) lhs rhs
  else throw (.instruction (.notBinary (.llvm kind)))

/-- Creates a comparison. -/
def icmp (p : Predicate) (lhs rhs : ValueId) : Build ValueId := compare (.llvm .icmp) p lhs rhs

/-- Whether an operation widens an integer. -/
def isExtension : LlvmOp → Bool
  | .sext | .zext => true
  | _ => false

/-- Creates an extension to a wider type. -/
def extend (kind : LlvmOp) (v : ValueId) (target : Ty) : Build ValueId := do
  if isExtension kind then Build.extend (.llvm kind) v target
  else throw (.instruction (.notExtension (.llvm kind)))

/-- Creates a stack slot. -/
def alloca (elem : Ty) : Build ValueId :=
  value
    { kind := .llvm .alloca
      results := [.ptr 0]
      attrs := .ofList [(AttrName.elemType, .type elem)] }

/-- Creates the reading of memory. -/
def load (ptr : ValueId) (ty : Ty) : Build ValueId := do
  let ptrTy ← typeOf ptr
  if ptrTy.isPtr then value { kind := .llvm .load, operands := [ptr], results := [ty] }
  else throw (.type (.load ptrTy))

/-- Creates the writing of memory. -/
def store (v ptr : ValueId) : Build OpId := do
  let ptrTy ← typeOf ptr
  if ptrTy.isPtr then op { kind := .llvm .store, operands := [v, ptr] }
  else throw (.type (.store ptrTy))

/-- Creates the reading of a pointer as an integer. -/
def ptrToInt (ptr : ValueId) (target : Ty) : Build ValueId := do
  let ptrTy ← typeOf ptr
  if ptrTy.isPtr && target.isInt then
    value { kind := .llvm .ptrToInt, operands := [ptr], results := [target] }
  else throw (.type (.ptrToInt ptrTy target))

/-- Creates the reading of an integer as a pointer. -/
def intToPtr (v : ValueId) (target : Ty) : Build ValueId := do
  let ty ← typeOf v
  if ty.isInt && target.isPtr then
    value { kind := .llvm .intToPtr, operands := [v], results := [target] }
  else throw (.type (.intToPtr ty target))

/-- Creates address arithmetic; the result stays in the address space of the base. -/
def gep (base : ValueId) (indices : List ValueId) (elem : Ty) : Build ValueId := do
  let baseTy ← typeOf base
  if baseTy.isPtr then
    value
      { kind := .llvm .gep
        operands := base :: indices
        results := [baseTy]
        attrs := .ofList [(AttrName.elemType, .type elem)] }
  else throw (.type (.elementOf baseTy))

/-- Creates a call. -/
def call (callee : String) (args : List ValueId) (results : List Ty) : Build OpId :=
  op
    { kind := .llvm .call
      operands := args
      results := results
      attrs := .ofList [(AttrName.callee, .symbol callee)] }

/-- Creates the return of some values from a function. -/
def ret (values : List ValueId) : Build OpId := op { kind := .llvm .ret, operands := values }

/-- Creates the mark of a place that is never reached. -/
def unreachable : Build OpId := op { kind := .llvm .unreachable }

/-- Creates a branch to the first block if the condition holds and to the second one if not. -/
def condBr (condition : ValueId) (thenBlock elseBlock : BlockId) : Build OpId := do
  let ty ← typeOf condition
  if ty = Ty.i1 then
    let id ← op { kind := .llvm .condBr, operands := [condition] }
    edit fun m => m.setSuccessors id [thenBlock, elseBlock]
    return id
  else throw (.type (.condition ty))

/-- Creates a branch. -/
def br (dest : BlockId) : Build OpId := do
  let id ← op { kind := .llvm .br }
  edit fun m => m.setSuccessors id [dest]
  return id

end Llvm

end Build

end ContractIR
