/-!
# Kinds of operations

Operations come in five dialects.  `sol` has containers and the return from contract code, `func`
functions and calls, `arith` integer arithmetic, `memref` memory cells; `llvm` is the low-level
dialect that every other one is lowered to.

## Main definitions

* `ContractIR.Dialect`, `ContractIR.OpKind` — dialects and kinds, with their printed names.
* `ContractIR.OpKind.isTerminator`, `isFunction`, `isContainer`, `isSymbol`, `isSymbolTable`,
  `isIsolated`, `isCall` — the classes that the other modules branch on.
* `ContractIR.OpKind.ofName?` — the kind behind a printed name.
-/

set_option autoImplicit false

namespace ContractIR

/-- A family of operations. -/
inductive Dialect where
  | sol | func | arith | memref | llvm
deriving DecidableEq, Inhabited

/-- The name that stands before the dot in a printed kind. -/
def Dialect.name : Dialect → String
  | .sol => "sol"
  | .func => "func"
  | .arith => "arith"
  | .memref => "memref"
  | .llvm => "llvm"

/-- The dialect of a name. -/
def Dialect.ofName? (s : String) : Option Dialect :=
  [sol, func, arith, memref, llvm].find? fun d => d.name == s

/-- Contracts, their sub-objects and the return from their code. -/
inductive SolOp where
  | contract | object | ret
deriving DecidableEq, Inhabited

/-- Functions, returns from them and calls of them. -/
inductive FuncOp where
  | func | ret | call
deriving DecidableEq, Inhabited

/-- Integer arithmetic. -/
inductive ArithOp where
  | constant | addi | muli | andi | cmpi | extsi | extui
deriving DecidableEq, Inhabited

/-- Memory cells. -/
inductive MemrefOp where
  | alloca | load | store
deriving DecidableEq, Inhabited

/-- The low-level operations. -/
inductive LlvmOp where
  | func | global | addressOf | load | store | alloca | constant | add | mul | and | lshr | sext
  | zext | icmp | ptrToInt | intToPtr | gep | call | ret | unreachable | condBr | br
deriving DecidableEq, Inhabited

/-- What an operation does. -/
inductive OpKind where
  | sol (op : SolOp)
  | func (op : FuncOp)
  | arith (op : ArithOp)
  | memref (op : MemrefOp)
  | llvm (op : LlvmOp)
deriving DecidableEq, Inhabited

namespace OpKind

/-! ## Names -/

/-- The dialect of a kind. -/
def dialect : OpKind → Dialect
  | .sol _ => .sol
  | .func _ => .func
  | .arith _ => .arith
  | .memref _ => .memref
  | .llvm _ => .llvm

/-- The name of a kind inside its dialect. -/
def mnemonic : OpKind → String
  | .sol .contract => "contract"
  | .sol .object => "object"
  | .sol .ret => "return"
  | .func .func => "func"
  | .func .ret => "return"
  | .func .call => "call"
  | .arith .constant => "constant"
  | .arith .addi => "addi"
  | .arith .muli => "muli"
  | .arith .andi => "andi"
  | .arith .cmpi => "cmpi"
  | .arith .extsi => "extsi"
  | .arith .extui => "extui"
  | .memref .alloca => "alloca"
  | .memref .load => "load"
  | .memref .store => "store"
  | .llvm .func => "func"
  | .llvm .global => "mlir.global"
  | .llvm .addressOf => "mlir.addressof"
  | .llvm .load => "load"
  | .llvm .store => "store"
  | .llvm .alloca => "alloca"
  | .llvm .constant => "mlir.constant"
  | .llvm .add => "add"
  | .llvm .mul => "mul"
  | .llvm .and => "and"
  | .llvm .lshr => "lshr"
  | .llvm .sext => "sext"
  | .llvm .zext => "zext"
  | .llvm .icmp => "icmp"
  | .llvm .ptrToInt => "ptrtoint"
  | .llvm .intToPtr => "inttoptr"
  | .llvm .gep => "getelementptr"
  | .llvm .call => "call"
  | .llvm .ret => "return"
  | .llvm .unreachable => "unreachable"
  | .llvm .condBr => "cond_br"
  | .llvm .br => "br"

/-- The printed name of a kind. -/
def name (k : OpKind) : String := k.dialect.name ++ "." ++ k.mnemonic

/-- Every kind. -/
def all : List OpKind :=
  [.sol .contract, .sol .object, .sol .ret,
    .func .func, .func .ret, .func .call,
    .arith .constant, .arith .addi, .arith .muli, .arith .andi, .arith .cmpi, .arith .extsi,
    .arith .extui,
    .memref .alloca, .memref .load, .memref .store,
    .llvm .func, .llvm .global, .llvm .addressOf, .llvm .load, .llvm .store, .llvm .alloca,
    .llvm .constant, .llvm .add, .llvm .mul, .llvm .and, .llvm .lshr, .llvm .sext, .llvm .zext,
    .llvm .icmp, .llvm .ptrToInt, .llvm .intToPtr, .llvm .gep, .llvm .call, .llvm .ret,
    .llvm .unreachable, .llvm .condBr, .llvm .br]

/-- The kind behind a printed name. -/
def ofName? (s : String) : Option OpKind := all.find? fun k => k.name == s

/-! ## Classes -/

/-- Whether operations of this kind end a block. -/
def isTerminator : OpKind → Bool
  | .sol .ret | .func .ret | .llvm .ret | .llvm .unreachable | .llvm .condBr | .llvm .br => true
  | _ => false

/-- Whether operations of this kind are functions. -/
def isFunction : OpKind → Bool
  | .func .func | .llvm .func => true
  | _ => false

/-- Whether operations of this kind group functions and code under a name. -/
def isContainer : OpKind → Bool
  | .sol .contract | .sol .object => true
  | _ => false

/-- Whether operations of this kind declare a symbol. -/
def isSymbol (k : OpKind) : Bool := k.isFunction || k.isContainer || decide (k = .llvm .global)

/-- Whether the regions of an operation of this kind open a scope for symbols. -/
def isSymbolTable (k : OpKind) : Bool := k.isContainer

/-- Whether the regions of an operation of this kind see no value from outside. -/
def isIsolated (k : OpKind) : Bool := k.isFunction || k.isContainer

/-- Whether operations of this kind call a function. -/
def isCall : OpKind → Bool
  | .func .call | .llvm .call => true
  | _ => false

end OpKind

end ContractIR
