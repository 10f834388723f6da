import ContractIR.EraVM.Entry

/-!
# Containers

A deployable container is split into the entry function, a function with its own code, and a
function with the code of the runtime objects inside it.  Its functions then move to the body of
the module and the container is dropped.

## Main definitions

* `ContractIR.EraVM.lowerContainers` — the split.
* `ContractIR.EraVM.Contexts`, `classify` — which functions are deploy code and which runtime code.
* `ContractIR.EraVM.hoist` — moves functions out of the containers, and drops the containers.
-/

set_option autoImplicit false

namespace ContractIR.EraVM

/-- The containers that stand directly in the body. -/
def topContainers (m : Module) : List OpId := m.topLevel.filter fun o => (m.kind o).isContainer

/-- The name of a container. -/
def containerName (id : OpId) : Transform String := do
  Transform.expect ((← get).symName? id) (.unnamed id)

/-! ## Code -/

/-- The function for the code of a context, created with an empty body if there is none. -/
def codeFunction (name : String) (context : CodeContext) : Transform BlockId := do
  let m ← get
  match m.lookupTop? name with
  | some function => Transform.expect (m.entryBlock? function) (.functionBody name)
  | none =>
    let (function, entry) ←
      Transform.build (fun m => { Builder.new m with location := m.location })
        (Build.Llvm.func name ⟨[], []⟩ "private" true)
    let entry ← Transform.expect entry (.createdWithoutBody name)
    modify fun m => m.setAttr function AttrName.isRuntime (.bool (decide (context = .runtime)))
    return entry

/-- Whether an operation of a container is code: neither a function nor a container. -/
def isCode (m : Module) (id : OpId) : Bool := !(m.kind id).isFunction && !(m.kind id).isContainer

/-- Moves the code of a container's body to the end of a block, which must be empty if there is
any code. -/
def moveCode (source target : BlockId) (location : Location) : Transform Unit := do
  let m ← get
  if (m.block source).ops.any (isCode m) && !(m.block target).ops.isEmpty then
    Transform.unsupported .sharedContext location
  else set (m.moveWhere source target isCode).2

/-- Ends a function that lacks a terminator by returning no data. -/
def terminate (function : OpId) : Transform Unit := do
  let m ← get
  match m.entryBlock? function with
  | none => return ()
  | some entry =>
    let last := (m.block entry).ops.getLast?
    if (last.map fun o => (m.kind o).isTerminator) = some true then return ()
    else
      let location := (m.op function).location
      Transform.build (fun m => { Builder.atEnd m entry with location := location }) do
        let zero ← Build.constant 0 Ty.word
        let _ ← Build.solReturn zero zero

/-- Ends the function of a name if there is one. -/
def terminateNamed (name : String) : Transform Unit := do
  match (← get).lookupTop? name with
  | some function => terminate function
  | none => return ()

/-! ## The split -/

/-- The runtime objects among some operations; any other container is refused. -/
def runtimeObjects : List OpId → Transform (List OpId)
  | [] => return []
  | id :: ids => do
    let m ← get
    if (m.kind id).isContainer then
      let name ← containerName id
      if CodeContext.isRuntimeName name then return id :: (← runtimeObjects ids)
      else
        Transform.unsupported (.nestedContainer name CodeContext.runtimeSuffix) (m.op id).location
    else runtimeObjects ids

/-- Moves the code of some runtime objects to the end of a block. -/
def moveObjects (target : BlockId) : List OpId → Transform Unit
  | [] => return ()
  | id :: ids => do
    let m ← get
    let body ← Transform.expect (m.entryBlock? id) .objectBody
    moveCode body target (m.op id).location
    moveObjects target ids

/-- Splits a container with runtime code only. -/
def splitRuntime (body : BlockId) (location : Location) : Transform Unit := do
  let runtimeBody ← codeFunction runtimeName .runtime
  moveCode body runtimeBody location

/-- Splits a deployable container, of which a program has one. -/
def splitDeployable (name : String) (body : BlockId) (location : Location) : Transform Unit := do
  let m ← get
  if (m.lookupTop? entryName).isSome then
    Transform.unsupported (.secondDeployable name) location
  let objects ← runtimeObjects (m.block body).ops
  let _ ← buildEntry location
  let deployBody ← codeFunction deployName .deploy
  moveCode body deployBody location
  let runtimeBody ← codeFunction runtimeName .runtime
  moveObjects runtimeBody objects

/-- Splits some containers. -/
def splitContainers : List OpId → Transform Unit
  | [] => return ()
  | id :: ids => do
    let name ← containerName id
    let m ← get
    let location := (m.op id).location
    let body ← Transform.expect (m.entryBlock? id) (.containerBody name)
    if CodeContext.isRuntimeName name then splitRuntime body location
    else splitDeployable name body location
    splitContainers ids

/-- Splits every container of the body; a module without containers is left alone. -/
def lowerContainers : Transform Unit := do
  Transform.needBody
  match topContainers (← get) with
  | [] => return ()
  | containers =>
    declareSymbols
    splitContainers containers
    terminateNamed deployName
    terminateNamed runtimeName

/-! ## Contexts of functions -/

/-- The contexts of functions. -/
structure Contexts where
  entries : List (OpId × CodeContext) := []
deriving DecidableEq, Inhabited

/-- The context of a function: what its marker says, else what the name of the nearest container
around it says. -/
def contextOf? (m : Module) (id : OpId) : Option CodeContext :=
  let marked := ((m.attr? id AttrName.isRuntime).bind Attr.bool?).map CodeContext.ofMarker
  let container := (m.ancestors id).find? fun a => (m.kind a).isContainer
  marked.or ((container.bind m.symName?).map CodeContext.ofContainer)

/-- The context of every function of the tree that has one. -/
def classify (m : Module) : Contexts :=
  ⟨m.walk.filterMap fun o =>
    if (m.kind o).isFunction then (contextOf? m o).map fun c => (o, c) else none⟩

namespace Contexts

/-- The context of a function. -/
def get? (c : Contexts) (id : OpId) : Option CodeContext :=
  (c.entries.find? fun e => decide (e.1 = id)).map Prod.snd

/-- The context of an operation: that of the nearest function around it that has one. -/
def around? (c : Contexts) (m : Module) (id : OpId) : Option CodeContext :=
  (m.ancestors id).findSome? c.get?

end Contexts

/-! ## Hoisting -/

/-- Moves some functions to the place before a container and counts them. -/
def hoistFunctions (container : OpId) : List OpId → Transform Nat
  | [] => return 0
  | id :: ids => do
    let m ← get
    let name := (m.symName? id).getD ""
    if (m.lookupTop? name).isSome then
      Transform.unsupported (if isReserved name then .reservedName name else .nameClash name)
        (m.op id).location
    Module.moveBefore id container
    return 1 + (← hoistFunctions container ids)

/-- Moves the functions of some containers to the body, drops the containers, and counts the
functions. -/
def hoistFrom : List OpId → Transform Nat
  | [] => return 0
  | container :: containers => do
    let m ← get
    let functions := (m.walkOp container).filter fun o => (m.kind o).isFunction
    let moved ← hoistFunctions container functions
    Module.eraseOp container
    return moved + (← hoistFrom containers)

/-- Moves the functions of all containers of the body to the body. -/
def hoist : Transform Nat := do
  Transform.needBody
  hoistFrom (topContainers (← get))

end ContractIR.EraVM
