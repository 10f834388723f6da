import ContractIR.Conversion
import ContractIR.EraVM.Containers

/-!
# Patterns

How the operations of the high-level dialects become low-level ones.  Most only change their kind.
A memory cell becomes a stack slot, and a return from contract code becomes a call of the return
function.

## Main definitions

* `ContractIR.EraVM.renames` — the operations that only change their kind.
* `ContractIR.EraVM.patterns` — every pattern, in order.
-/

set_option autoImplicit false

namespace ContractIR.EraVM

open Build Conversion

/-! ## Returns from contract code -/

/-- The length in bytes of what a constructor returns, computed by the program: twice the
immutables and two fields. -/
def returnedLength : Build ValueId := do
  let size ← constant (immutablesSize : Int) Ty.word
  let two ← constant 2 Ty.word
  let doubled ← muli size two
  let header ← constant ((fieldBytes * 2 : Nat) : Int) Ty.word
  addi doubled header

/-- Stores a word at a place of the auxiliary heap. -/
def storeAux (offset word : Nat) : Build Unit := do
  let address ← constant (offset : Int) Ty.word
  let pointer ← Llvm.intToPtr address AddressSpace.auxHeap.ptr
  let content ← constant (word : Int) Ty.word
  let _ ← Llvm.store content pointer

/-- Returns from deploy code: writes the header of the constructor's data and returns it. -/
def deployReturn : Build Unit := do
  storeAux constructorOffset fieldBytes
  storeAux (constructorOffset + fieldBytes) (immutablesSize / fieldBytes)
  let length ← returnedLength
  let offset ← constant (constructorOffset : Int) Ty.word
  let mode ← constant (ReturnMode.auxHeap.number : Int) Ty.word
  let _ ← funcCall returnName [offset, length, mode] []

/-- Returns from runtime code. -/
def runtimeReturn (offset length : ValueId) : Build Unit := do
  let mode ← constant (ReturnMode.heap.number : Int) Ty.word
  let _ ← funcCall returnName [offset, length, mode] []

/-- Rewrites a return from contract code for the context that it stands in. -/
def lowerReturnOp (contexts : Contexts) (id : OpId) : Transform Bool := do
  let m ← get
  let location := (m.op id).location
  let context ← Transform.expect (contexts.around? m id) (.returnContext location)
  match (m.op id).operands with
  | [offset, length] =>
    Transform.build Builder.new do
      before id
      setLocation location
      match context with
      | .runtime => runtimeReturn offset length
      | .deploy => deployReturn
      let _ ← Llvm.unreachable
    Module.eraseOp id
    return true
  | _ => throw (.invariant (.returnOperands location))

/-! ## Functions and cells -/

/-- Rewrites a function: it becomes visible to everyone unless it says otherwise. -/
def lowerFuncOp (id : OpId) : Transform Bool := do
  modify fun m => m.setKind id (.llvm .func)
  modify fun m =>
    if (m.attr? id AttrName.linkage).isNone then m.setAttr id AttrName.linkage (.str "external")
    else m
  return true

/-- Rewrites a memory cell as a stack slot. -/
def lowerAllocaOp (id : OpId) : Transform Bool := do
  let m ← get
  match m.result? id 0 with
  | none => return false
  | some v =>
    match (m.typeOf v).element? with
    | none => return false
    | some elem =>
      set (((m.setType v AddressSpace.stack.ptr).setAttr id AttrName.elemType (.type elem)).setKind
        id (.llvm .alloca))
      return true

/-! ## All patterns -/

/-- Operations whose low-level form has the same operands, results and attributes: the name of
the pattern, the kind, and the low-level kind. -/
def renames : List (String × OpKind × LlvmOp) :=
  [("func-return", .func .ret, .ret),
    ("func-call", .func .call, .call),
    ("arith-constant", .arith .constant, .constant),
    ("arith-addi", .arith .addi, .add),
    ("arith-muli", .arith .muli, .mul),
    ("arith-andi", .arith .andi, .and),
    ("arith-cmpi", .arith .cmpi, .icmp),
    ("arith-extsi", .arith .extsi, .sext),
    ("arith-extui", .arith .extui, .zext),
    ("memref-load", .memref .load, .load),
    ("memref-store", .memref .store, .store)]

/-- The pattern that changes one kind into another. -/
def renamePattern (name : String) (source : OpKind) (target : LlvmOp) : Pattern where
  name := name
  root := source
  rewrite id := do
    modify fun m => m.setKind id (.llvm target)
    return true

/-- Every pattern, for functions in given contexts. -/
def patterns (contexts : Contexts) : List Pattern :=
  [⟨"sol-return", .sol .ret, lowerReturnOp contexts⟩,
    ⟨"func-func", .func .func, lowerFuncOp⟩,
    ⟨"memref-alloca", .memref .alloca, lowerAllocaOp⟩] ++
    renames.map fun r => renamePattern r.1 r.2.1 r.2.2

end ContractIR.EraVM
