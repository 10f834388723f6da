import ContractIR.Module.Basic

/-!
# The entry ABI of EraVM

Names, address spaces and constants that the machine's calling convention fixes: the functions a
program consists of, the globals that the entry function sets up, and the layout of what a
constructor returns.

## Main definitions

* `ContractIR.EraVM.AddressSpace` — the address spaces and their pointer types.
* `ContractIR.EraVM.Global` — the globals of the ABI, with names and types.
* `ContractIR.EraVM.isReserved` — the symbols that the ABI declares.
* `ContractIR.EraVM.entrySignature` — the signature of the entry function.
* `ContractIR.EraVM.CodeContext` — deploy code and runtime code.
-/

set_option autoImplicit false

namespace ContractIR.EraVM

/-! ## Address spaces -/

/-- The address spaces of the machine. -/
inductive AddressSpace where
  | stack | heap | auxHeap | generic | code | storage
deriving DecidableEq, Inhabited

namespace AddressSpace

/-- The number of an address space. -/
def number : AddressSpace → Nat
  | .stack => 0
  | .heap => 1
  | .auxHeap => 2
  | .generic => 3
  | .code => 4
  | .storage => 5

/-- Every address space, by number. -/
def all : List AddressSpace := [.stack, .heap, .auxHeap, .generic, .code, .storage]

/-- The type of pointers into an address space. -/
def ptr (s : AddressSpace) : Ty := .ptr s.number

end AddressSpace

/-! ## Constants -/

/-- How returned data is handed to the caller. -/
inductive ReturnMode where
  | heap | forwardPointer | auxHeap
deriving DecidableEq, Inhabited

/-- The number of a way to return data. -/
def ReturnMode.number : ReturnMode → Nat
  | .heap => 0
  | .forwardPointer => 1
  | .auxHeap => 2

/-- The length of a field, in bytes. -/
def fieldBytes : Nat := 32

/-- The place on the auxiliary heap of what a constructor returns. -/
def constructorOffset : Nat := fieldBytes * 8

/-- The length in bytes of the immutables that a constructor returns; none are supported. -/
def immutablesSize : Nat := 0

/-- The number of extra words that the entry function takes. -/
def extraWords : Nat := 10

/-- The place of the length of the call data inside the pointer to it, in bits. -/
def lengthShift : Nat := 32 * 3

/-- The mask of the length of the call data. -/
def lengthMask : Nat := 4294967295

/-! ## Functions -/

/-- The name of the function that is called first. -/
def entryName : String := "__entry"

/-- The name of the function with the code that runs at deployment. -/
def deployName : String := "__deploy"

/-- The name of the function with the code that runs after deployment. -/
def runtimeName : String := "__runtime"

/-- The name of the function that returns data to the caller. -/
def returnName : String := "__return"

/-- The signature of the entry function: the pointer to the call data, the call flags and the
extra words. -/
def entrySignature : Signature where
  inputs := AddressSpace.generic.ptr :: List.replicate (1 + extraWords) Ty.word
  results := [Ty.word]

/-- The signature of the function that returns data: offset, length and mode. -/
def returnSignature : Signature where
  inputs := [Ty.word, Ty.word, Ty.word]
  results := []

/-! ## Globals -/

/-- The globals that the entry function sets up. -/
inductive Global where
  | memoryPointer | calldataSize | returnDataSize | callFlags | extraAbiData | calldataPtr
  | returnDataPtr | activePtr
deriving DecidableEq, Inhabited

namespace Global

/-- The name of a global. -/
def name : Global → String
  | .memoryPointer => "memory_pointer"
  | .calldataSize => "calldatasize"
  | .returnDataSize => "returndatasize"
  | .callFlags => "call_flags"
  | .extraAbiData => "extra_abi_data"
  | .calldataPtr => "ptr_calldata"
  | .returnDataPtr => "ptr_return_data"
  | .activePtr => "ptr_active"

/-- The type of a global. -/
def ty : Global → Ty
  | .memoryPointer | .calldataSize | .returnDataSize | .callFlags => Ty.word
  | .extraAbiData => .array Ty.word extraWords
  | .calldataPtr | .returnDataPtr | .activePtr => AddressSpace.generic.ptr

/-- The globals that hold a word, in the order in which they are set to zero. -/
def words : List Global := [.memoryPointer, .calldataSize, .returnDataSize, .callFlags]

/-- Every global, in order of declaration. -/
def all : List Global := words ++ [.extraAbiData, .calldataPtr, .returnDataPtr, .activePtr]

/-- The initial value of a global: zeros, and none for a pointer. -/
def initial? (g : Global) : Option Attr :=
  match g.ty with
  | .int bits => some (.int 0 (.int bits))
  | .array elem length => some (.zero (.array elem length))
  | _ => none

end Global

/-- Whether a name is one of the symbols that the ABI declares. -/
def isReserved (name : String) : Bool :=
  [entryName, deployName, runtimeName, returnName].contains name ||
    (Global.all.map Global.name).contains name

/-! ## Contexts -/

/-- The two halves of a contract's code. -/
inductive CodeContext where
  | deploy | runtime
deriving DecidableEq, Inhabited

namespace CodeContext

/-- The context that a marker says. -/
def ofMarker (isRuntime : Bool) : CodeContext := if isRuntime then .runtime else .deploy

/-- The ending of the names of containers with runtime code. -/
def runtimeSuffix : String := "_deployed"

/-- Whether a container holds runtime code, by its name. -/
def isRuntimeName (name : String) : Bool := runtimeSuffix.toList.isSuffixOf name.toList

/-- The context of the code in a container. -/
def ofContainer (name : String) : CodeContext := ofMarker (isRuntimeName name)

end CodeContext

end ContractIR.EraVM
