import ContractIR.EraVM.Abi
import ContractIR.Transform

/-!
# The entry function

The entry function zeroes the globals of the ABI, sets them from its arguments, and goes on with
the deploy code if bit 0 of the call flags is set and with the runtime code if it is not.

## Main definitions

* `ContractIR.EraVM.declareSymbols` — the globals, and the declaration of the return function.
* `ContractIR.EraVM.buildEntry` — the entry function.
-/

set_option autoImplicit false

namespace ContractIR.EraVM

open Build

/-! ## Declarations -/

/-- Declares the globals of a list that the body lacks. -/
def declareGlobals : List Global → Build Unit
  | [] => return ()
  | g :: gs => do
    if ((← ir).lookupTop? g.name).isNone then
      let _ ← Llvm.global g.name g.ty "private" g.initial?
    declareGlobals gs

/-- Declares, at the start of the body, every symbol of the ABI that the body lacks. -/
def declareSymbols : Transform Unit :=
  Transform.build (fun m => { Builder.new m with location := m.location }) do
    toStart (← ir).bodyBlock
    declareGlobals Global.all
    if ((← ir).lookupTop? returnName).isNone then
      let _ ← Llvm.func returnName returnSignature "external" false

/-! ## Parts of the entry function -/

/-- A word. -/
def wordConstant (n : Nat) : Build ValueId := Llvm.constant (n : Int) Ty.word

/-- The address of a global. -/
def addressOf (g : Global) : Build ValueId := Llvm.addressOf g.name AddressSpace.stack.ptr

/-- Stores a value in a global. -/
def storeGlobal (v : ValueId) (g : Global) : Build Unit := do
  let address ← addressOf g
  let _ ← Llvm.store v address

/-- Stores a value in each global of a list. -/
def storeGlobals (v : ValueId) : List Global → Build Unit
  | [] => return ()
  | g :: gs => do
    storeGlobal v g
    storeGlobals v gs

/-- The address of a slot of the extra words. -/
def extraSlot (base : ValueId) (slot : Nat) : Build ValueId := do
  let first ← wordConstant 0
  let index ← wordConstant slot
  Llvm.gep base [first, index] Global.extraAbiData.ty

/-- Stores values in the slots of the extra words, from a slot on. -/
def storeExtra (base : ValueId) : Nat → List ValueId → Build Unit
  | _, [] => return ()
  | slot, v :: vs => do
    let address ← extraSlot base slot
    let _ ← Llvm.store v address
    storeExtra base (slot + 1) vs

/-- Sets everything that the ABI keeps about the call data: the pointer itself, its length, and
the pointers to the empty stretch behind it. -/
def storeCalldata (calldata : ValueId) : Build Unit := do
  storeGlobal calldata .calldataPtr
  let number ← Llvm.ptrToInt calldata Ty.word
  let shift ← wordConstant lengthShift
  let shifted ← Llvm.binary .lshr number shift
  let mask ← wordConstant lengthMask
  let length ← Llvm.binary .and shifted mask
  let address ← addressOf .calldataSize
  let _ ← Llvm.store length address
  let size ← Llvm.load address Ty.word
  let behind ← Llvm.gep calldata [size] (.int 8)
  storeGlobals behind [.returnDataPtr, .activePtr]

/-- Calls a function that does not come back, in a block of its own. -/
def callForever (block : BlockId) (callee : String) : Build Unit := do
  toEnd block
  let _ ← Llvm.call callee [] []
  let _ ← Llvm.unreachable

/-- Branches to the deploy code if bit 0 of the call flags is set, and else to the runtime code. -/
def dispatch (callFlags : ValueId) (deployBlock runtimeBlock : BlockId) : Build Unit := do
  let one ← wordConstant 1
  let bit ← Llvm.binary .and callFlags one
  let isDeploy ← Llvm.icmp .eq bit one
  let _ ← Llvm.condBr isDeploy deployBlock runtimeBlock
  callForever deployBlock deployName
  callForever runtimeBlock runtimeName

/-! ## The entry function -/

/-- Builds the body of the entry function in its three blocks. -/
def buildEntryBody (entry deployBlock runtimeBlock : BlockId) : Build Unit := do
  toEnd entry
  let args ← argsOf entry
  let calldata := args.getD 0 default
  let callFlags := args.getD 1 default
  let zero ← wordConstant 0
  storeGlobals zero Global.words
  let extra ← addressOf .extraAbiData
  storeExtra extra 0 (List.replicate extraWords zero)
  storeCalldata calldata
  storeGlobal callFlags .callFlags
  storeExtra extra 0 (args.drop 2)
  dispatch callFlags deployBlock runtimeBlock

/-- Builds the entry function at the end of the body. -/
def buildEntry (location : Location) : Transform OpId :=
  Transform.build (fun m => { Builder.new m with location := location }) do
    let (function, entry) ← Llvm.func entryName entrySignature "external" true
    let entry ← Transform.expect entry (.createdWithoutBody entryName)
    let deployBlock ← appendBlock function 0 []
    let runtimeBlock ← appendBlock function 0 []
    buildEntryBody entry deployBlock runtimeBlock
    return function

end ContractIR.EraVM
