import ContractIR.EraVM.Patterns
import ContractIR.Proofs.Lowering.Verified

/-!
# Types of operations

The code of a module is made of operations of the high-level dialects while it is compiled, and of
low-level ones in the end.  Which types an operation of code reads and gives is said once, by the
low-level kind that it is or becomes.  Only cells differ: a cell is a value of a type of its own at
the high level, and a pointer to a stack slot at the low level.

## Main definitions

* `ContractIR.OpKind.low` — the low-level kind that operations of a kind become.
* `ContractIR.EraVM.abiSignature?` — the signatures of the functions that generated code calls.
* `ContractIR.Env` — what code may refer to outside of its function.
* `ContractIR.OpKind.HasType` — the types that an operation of code reads and gives.

## Main results

* `ContractIR.OpKind.HasType.retype` — an operation keeps its type when cells become stack slots.
* `ContractIR.Module.verifyOp_of_hasType` — low-level operations of code with their types, whose
  symbols, successors and function are right, satisfy the rules of their kinds.
-/

set_option autoImplicit false

namespace ContractIR

/-! ## Low-level kinds -/

namespace OpKind

/-- The low-level kind that operations of a kind become.  Containers and returns from contract code
have none. -/
def low : OpKind → OpKind
  | .func .func => .llvm .func
  | .func .ret => .llvm .ret
  | .func .call => .llvm .call
  | .arith .constant => .llvm .constant
  | .arith .addi => .llvm .add
  | .arith .muli => .llvm .mul
  | .arith .andi => .llvm .and
  | .arith .cmpi => .llvm .icmp
  | .arith .extsi => .llvm .sext
  | .arith .extui => .llvm .zext
  | .memref .alloca => .llvm .alloca
  | .memref .load => .llvm .load
  | .memref .store => .llvm .store
  | k => k

/-- Low-level kinds stay what they are. -/
@[simp] theorem low_llvm (k : LlvmOp) : (OpKind.llvm k).low = .llvm k := rfl

/-- Terminators become terminators, and nothing else does. -/
@[simp] theorem isTerminator_low (k : OpKind) : k.low.isTerminator = k.isTerminator := by
  rcases k with k | k | k | k | k <;> cases k <;> rfl

/-- Functions become functions, and nothing else does. -/
@[simp] theorem isFunction_low (k : OpKind) : k.low.isFunction = k.isFunction := by
  rcases k with k | k | k | k | k <;> cases k <;> rfl

/-- Containers stay containers, and nothing else becomes one. -/
@[simp] theorem isContainer_low (k : OpKind) : k.low.isContainer = k.isContainer := by
  rcases k with k | k | k | k | k <;> cases k <;> rfl

/-- Symbols become symbols, and nothing else does. -/
@[simp] theorem isSymbol_low (k : OpKind) : k.low.isSymbol = k.isSymbol := by
  rcases k with k | k | k | k | k <;> cases k <;> rfl

/-- Functions are no containers. -/
theorem isContainer_of_isFunction {k : OpKind} (h : k.isFunction = true) :
    k.isContainer = false := by
  rcases k with k | k | k | k | k <;> cases k <;> first | rfl | cases h

/-- Terminators declare no symbols. -/
theorem isSymbol_of_isTerminator {k : OpKind} (h : k.isTerminator = true) :
    k.isSymbol = false := by
  rcases k with k | k | k | k | k <;> cases k <;> first | rfl | cases h

/-- Whether operations of this kind are code that goes on with the next operation. -/
def isPlain (k : OpKind) : Bool := !k.isTerminator && !k.isSymbol

/-- Plain code goes on. -/
theorem isTerminator_of_isPlain {k : OpKind} (h : k.isPlain = true) : k.isTerminator = false := by
  rw [isPlain, Bool.and_eq_true, Bool.not_eq_true'] at h
  exact h.1

/-- What declares no symbol is no function. -/
theorem isFunction_of_isSymbol {k : OpKind} (h : k.isSymbol = false) : k.isFunction = false := by
  rw [isSymbol, Bool.or_eq_false_iff, Bool.or_eq_false_iff] at h
  exact h.1.1

/-- Plain code declares nothing. -/
theorem isSymbol_of_isPlain {k : OpKind} (h : k.isPlain = true) : k.isSymbol = false := by
  rw [isPlain, Bool.and_eq_true, Bool.not_eq_true', Bool.not_eq_true'] at h
  exact h.2

/-- Plain code does not return. -/
theorem low_ne_ret {k : OpKind} (h : k.isPlain = true) : k.low ≠ .llvm .ret := by
  intro hlow
  have hterminator : k.isTerminator = true := by rw [← isTerminator_low, hlow]; rfl
  rw [isPlain, hterminator] at h
  cases h

/-- Plain code does not branch. -/
theorem ne_condBr {k : OpKind} (h : k.isPlain = true) : k ≠ .llvm .condBr := by
  rintro rfl
  cases h

/-- Plain code does not return from the contract. -/
theorem ne_solReturn {k : OpKind} (h : k.isPlain = true) : k ≠ .sol .ret := by
  rintro rfl
  cases h

/-- The classes of kinds are decided by the low-level kind. -/
theorem classes_of_low_eq {k l : OpKind} (h : k.low = l.low) :
    k.isTerminator = l.isTerminator ∧ k.isFunction = l.isFunction ∧
      k.isContainer = l.isContainer ∧ k.isSymbol = l.isSymbol := by
  rw [← isTerminator_low k, ← isFunction_low k, ← isContainer_low k, ← isSymbol_low k, h]
  simp

end OpKind

/-- A renamed operation gets the low-level kind of its kind. -/
theorem EraVM.low_of_mem_renames : ∀ r ∈ EraVM.renames, r.2.1.low = .llvm r.2.2 := by
  decide

/-! ## Functions that generated code calls -/

/-- The signature of a function of the ABI that generated code calls. -/
def EraVM.abiSignature? (name : String) : Option Signature :=
  if name = EraVM.returnName then some EraVM.returnSignature
  else if name = EraVM.deployName ∨ name = EraVM.runtimeName then some ⟨[], []⟩
  else none

/-- The functions of the ABI that generated code calls take words and give nothing. -/
theorem EraVM.abiSignature?_eq_some {name : String} {s : Signature}
    (h : EraVM.abiSignature? name = some s) : (∀ t ∈ s.inputs, t = Ty.word) ∧ s.results = [] := by
  unfold EraVM.abiSignature? at h
  split at h
  · obtain rfl := Option.some.inj h
    simp [EraVM.returnSignature]
  · split at h
    · obtain rfl := Option.some.inj h
      simp
    · cases h

/-! ## Types -/

/-- What code may refer to outside of its function. -/
structure Env where
  /-- The symbols of the ABI that code names. -/
  symbols : String → Prop
  /-- The operations whose code returns from the contract. -/
  returning : OpId → Prop

/-- Whether values of a type say where something is stored: cells do, and so do pointers. -/
def Ty.isAddress (t : Ty) : Bool := t.isPtr || t.element?.isSome

/-- The types that an operation of code reads and gives, by its kind and attributes. -/
inductive OpKind.HasType (env : Env) (kind : OpKind) (attrs : AttrDict) : List Ty → List Ty → Prop
  | constant {n : Int} {w : Nat} (hkind : kind.low = .llvm .constant)
    (hvalue : attrs.get? AttrName.value = some (.int n (.int w))) :
    HasType env kind attrs [] [.int w]
  | binary {k : LlvmOp} {w : Nat} (hkind : kind.low = .llvm k)
    (hbinary : Build.Llvm.isBinary k = true) : HasType env kind attrs [.int w, .int w] [.int w]
  | icmp {p : Predicate} {w : Nat} (hkind : kind.low = .llvm .icmp)
    (hpredicate : attrs.get? AttrName.predicate = some p.toAttr) :
    HasType env kind attrs [.int w, .int w] [Ty.i1]
  | extend {k : LlvmOp} {v w : Nat} (hkind : kind.low = .llvm k)
    (hextension : Build.Llvm.isExtension k = true) (hwider : v < w) :
    HasType env kind attrs [.int v] [.int w]
  | cell {w : Nat} (hkind : kind = .memref .alloca) : HasType env kind attrs [] [.memref (.int w)]
  | slot {elem : Ty} {s : Nat} (hkind : kind = .llvm .alloca)
    (helem : attrs.get? AttrName.elemType = some (.type elem)) : HasType env kind attrs [] [.ptr s]
  | load {address : Ty} {w : Nat} (hkind : kind.low = .llvm .load)
    (haddress : address.isAddress = true) : HasType env kind attrs [address] [.int w]
  | store {content address : Ty} (hkind : kind.low = .llvm .store)
    (haddress : address.isAddress = true) : HasType env kind attrs [content, address] []
  | addressOf {g : EraVM.Global} {s : Nat} (hkind : kind.low = .llvm .addressOf)
    (hname : attrs.get? AttrName.globalName = some (.symbol g.name))
    (hsymbol : env.symbols g.name) :
    HasType env kind attrs [] [.ptr s]
  | gep {s : Nat} {indices : List Ty} {elem : Ty} (hkind : kind.low = .llvm .gep)
    (hindices : ∀ t ∈ indices, t.isInt = true)
    (helem : attrs.get? AttrName.elemType = some (.type elem)) :
    HasType env kind attrs (.ptr s :: indices) [.ptr s]
  | ptrToInt {s w : Nat} (hkind : kind.low = .llvm .ptrToInt) :
    HasType env kind attrs [.ptr s] [.int w]
  | intToPtr {w s : Nat} (hkind : kind.low = .llvm .intToPtr) :
    HasType env kind attrs [.int w] [.ptr s]
  | call {name : String} {signature : Signature} (hkind : kind.low = .llvm .call)
    (hcallee : attrs.get? AttrName.callee = some (.symbol name))
    (hsignature : EraVM.abiSignature? name = some signature) (hsymbol : env.symbols name) :
    HasType env kind attrs signature.inputs []
  | ret {types : List Ty} (hkind : kind.low = .llvm .ret) (htypes : ∀ t ∈ types, t.isInt = true) :
    HasType env kind attrs types []
  | solReturn (hkind : kind = .sol .ret) : HasType env kind attrs [Ty.word, Ty.word] []
  | unreachable (hkind : kind.low = .llvm .unreachable) : HasType env kind attrs [] []
  | condBr (hkind : kind.low = .llvm .condBr) : HasType env kind attrs [Ty.i1] []

namespace OpKind.HasType

variable {env : Env} {kind : OpKind} {attrs : AttrDict} {ins outs : List Ty}

/-- No operation of code declares a symbol. -/
theorem isSymbol_eq (h : kind.HasType env attrs ins outs) : kind.isSymbol = false := by
  rw [← OpKind.isSymbol_low]
  cases h with
  | @binary k w hkind hbinary =>
    rw [hkind]
    cases k <;> first | rfl | cases hbinary
  | @extend k v w hkind hextension hwider =>
    rw [hkind]
    cases k <;> first | rfl | cases hextension
  | cell hkind | slot hkind | solReturn hkind => rw [hkind]; rfl
  | constant hkind | icmp hkind | load hkind | store hkind | addressOf hkind | gep hkind
  | ptrToInt hkind | intToPtr hkind | call hkind | ret hkind | unreachable hkind
  | condBr hkind => rw [hkind]; rfl

/-- The only operations that give cells are those that create them. -/
theorem element?_of_mem (h : kind.HasType env attrs ins outs) (hkind : kind ≠ .memref .alloca)
    {t : Ty} (ht : t ∈ outs) : t.element? = none := by
  cases h with
  | cell hcell => exact absurd hcell hkind
  | constant | binary | icmp | extend | slot | load | addressOf | gep | ptrToInt | intToPtr =>
    rw [List.mem_singleton.1 ht]
    rfl
  | store | call | ret | solReturn | unreachable | condBr => cases ht

end OpKind.HasType

/-! ## Cells as stack slots -/

/-- A type stays as it is, or is the type of a cell and becomes that of a stack slot. -/
def Ty.Settles (t u : Ty) : Prop :=
  u = t ∨ t.element?.isSome = true ∧ u = EraVM.AddressSpace.stack.ptr

namespace Ty.Settles

variable {t u : Ty}

/-- The type of no cell stays as it is. -/
theorem eq_of_element? (h : t.Settles u) (ht : t.element? = none) : u = t := by
  rcases h with rfl | ⟨hcell, -⟩
  · rfl
  · rw [ht] at hcell
    cases hcell

/-- A place stays a place. -/
theorem isAddress (h : t.Settles u) (ht : t.isAddress = true) : u.isAddress = true := by
  rcases h with rfl | ⟨-, rfl⟩
  · exact ht
  · rfl

/-- Types of no cells stay as they are. -/
theorem eq_of_forall {ts us : List Ty} (h : List.Forall₂ Ty.Settles ts us)
    (hts : ∀ t ∈ ts, t.element? = none) : us = ts := by
  induction h with
  | nil => rfl
  | cons hr _ ih =>
    rw [hr.eq_of_element? (hts _ (.head _)), ih fun t ht => hts t (.tail _ ht)]

end Ty.Settles

/-- Integers are no cells. -/
theorem Ty.element?_of_isInt {t : Ty} (h : t.isInt = true) : t.element? = none := by
  cases t <;> first | rfl | cases h

namespace OpKind.HasType

variable {env : Env} {kind : OpKind} {attrs : AttrDict} {ins outs : List Ty}

/-- An operation keeps its type when cells that it reads become stack slots.

**Proof sketch.** By the typing rule.  Reads and writes take cells and stack slots alike
(`isAddress`); what any other rule reads is no cell, so nothing changes. -/
theorem retype (h : kind.HasType env attrs ins outs) {ins' : List Ty}
    (hins : List.Forall₂ Ty.Settles ins ins') : kind.HasType env attrs ins' outs := by
  -- reading and writing take any place; everything else takes no cells at all
  have hsame : (∀ t ∈ ins, t.element? = none) → kind.HasType env attrs ins' outs := by
    intro hts
    rw [Ty.Settles.eq_of_forall hins hts]
    exact h
  cases h with
  | load hkind haddress =>
    rcases hins with _ | ⟨h₁, _ | _⟩
    exact .load hkind (h₁.isAddress haddress)
  | store hkind haddress =>
    rcases hins with _ | ⟨_, _ | ⟨h₂, _ | _⟩⟩
    exact .store hkind (h₂.isAddress haddress)
  | gep hkind hindices helem =>
    apply hsame
    rintro t (_ | ⟨_, ht⟩)
    · rfl
    · exact Ty.element?_of_isInt (hindices t ht)
  | call hkind hcallee hsignature =>
    apply hsame
    intro t ht
    rw [(EraVM.abiSignature?_eq_some hsignature).1 t ht]
    rfl
  | ret hkind htypes => exact hsame fun t ht => Ty.element?_of_isInt (htypes t ht)
  | constant | binary | icmp | extend | cell | slot | addressOf | ptrToInt | intToPtr | solReturn
  | unreachable | condBr => exact hsame (by simp [Ty.element?, Ty.word, Ty.i1])

/-- An operation keeps its type when it gets its low-level kind, unless it is a cell.

**Proof sketch.** One case for each rule: it asks for the low-level kind, which is the same. -/
theorem rename (h : kind.HasType env attrs ins outs) (hkind : kind ≠ .memref .alloca)
    {kind' : OpKind} (hlow : kind'.low = kind.low) (hsol : kind ≠ .sol .ret)
    (hslot : kind ≠ .llvm .alloca) :
    kind'.HasType env attrs ins outs := by
  cases h with
  | constant hk hvalue => exact .constant (hlow.trans hk) hvalue
  | binary hk hbinary => exact .binary (hlow.trans hk) hbinary
  | icmp hk hpredicate => exact .icmp (hlow.trans hk) hpredicate
  | extend hk hextension hwider => exact .extend (hlow.trans hk) hextension hwider
  | cell hk => exact absurd hk hkind
  | slot hk => exact absurd hk hslot
  | load hk haddress => exact .load (hlow.trans hk) haddress
  | store hk haddress => exact .store (hlow.trans hk) haddress
  | addressOf hk hname hsymbol => exact .addressOf (hlow.trans hk) hname hsymbol
  | gep hk hindices helem => exact .gep (hlow.trans hk) hindices helem
  | ptrToInt hk => exact .ptrToInt (hlow.trans hk)
  | intToPtr hk => exact .intToPtr (hlow.trans hk)
  | call hk hcallee hsignature hsymbol =>
    exact .call (hlow.trans hk) hcallee hsignature hsymbol
  | ret hk htypes => exact .ret (hlow.trans hk) htypes
  | solReturn hk => exact absurd hk hsol
  | unreachable hk => exact .unreachable (hlow.trans hk)
  | condBr hk => exact .condBr (hlow.trans hk)

/-- Where the rule of a kind is a typing rule, low-level code follows it if it reads no cell.

**Proof sketch.** By the typing rule.  Where it speaks of a place, the place is no cell, hence a
pointer, which is what the rule of the kind asks for; the other rules say the same in both
readings. -/
theorem accepts {k : LlvmOp} (h : (OpKind.llvm k).HasType env attrs ins outs)
    (hrule : (OpKind.llvm k).isTyped = true) (hcells : ∀ t ∈ ins, t.element? = none) :
    (OpKind.llvm k).Accepts attrs ins outs := by
  -- a place that is no cell is a pointer
  have hptr {t : Ty} (ht : t ∈ ins) (haddress : t.isAddress = true) : ∃ s, t = .ptr s := by
    rw [Ty.isAddress, hcells t ht] at haddress
    exact Ty.isPtr_iff.1 (by simpa using haddress)
  cases h with
  | constant hk hvalue =>
    cases hk
    exact ⟨_, _, hvalue, rfl, rfl⟩
  | binary hk hbinary =>
    cases hk
    cases k <;> first | exact ⟨_, rfl, rfl⟩ | cases hbinary
  | icmp hk hpredicate =>
    cases hk
    exact ⟨⟨_, hpredicate⟩, _, rfl, rfl⟩
  | extend hk hextension hwider =>
    cases hk
    cases k <;> first | exact ⟨_, _, hwider, rfl, rfl⟩ | cases hextension
  | slot hk helem =>
    cases hk
    exact ⟨⟨_, helem⟩, _, rfl, rfl⟩
  | load hk haddress =>
    cases hk
    obtain ⟨s, rfl⟩ := hptr (.head _) haddress
    exact ⟨_, _, rfl, rfl⟩
  | store hk haddress =>
    cases hk
    obtain ⟨s, rfl⟩ := hptr (.tail _ (.head _)) haddress
    exact ⟨_, _, rfl, rfl⟩
  | ptrToInt hk | intToPtr hk =>
    cases hk
    exact ⟨_, _, rfl, rfl⟩
  | addressOf hk | gep hk | call hk | ret hk | unreachable hk | condBr hk =>
    cases hk
    cases hrule
  | cell hk | solReturn hk => cases hk

end OpKind.HasType

/-! ## Rules -/

namespace OpKind

/-- Low-level arithmetic has a typing rule. -/
theorem isTyped_of_isBinary {k : LlvmOp} (h : Build.Llvm.isBinary k = true) :
    (OpKind.llvm k).isTyped = true := by
  cases k <;> first | rfl | cases h

/-- Low-level extensions have a typing rule. -/
theorem isTyped_of_isExtension {k : LlvmOp} (h : Build.Llvm.isExtension k = true) :
    (OpKind.llvm k).isTyped = true := by
  cases k <;> first | rfl | cases h

end OpKind

namespace Module

variable {env : Env} {m : Module} {id : OpId}

/-- What an operation of code refers to outside of its operands and results: a call names a
function and an address a global that is there, a return gives what the function around it
promises, and branches stay inside their region. -/
structure RefersWell (env : Env) (m : Module) (id : OpId) : Prop where
  callee : ∀ name signature, env.symbols name → EraVM.abiSignature? name = some signature →
    ∃ f, m.lookup? id name = some f ∧ (m.kind f).isFunction = true ∧
      m.signature? f = some signature
  global : ∀ g : EraVM.Global, env.symbols g.name →
    ∃ o, m.lookup? id g.name = some o ∧ m.kind o = .llvm .global
  returns : m.kind id = .llvm .ret → ∃ f signature, m.parentOp? id = some f ∧
    m.kind f = .llvm .func ∧ m.signature? f = some signature ∧
    m.typesOf (m.op id).operands = signature.results
  successors : m.kind id = .llvm .condBr → (m.op id).successors.length = 2 ∧
    ∀ b ∈ (m.op id).successors,
      some (m.block b).parent = (m.op id).parent.map fun x => (m.block x).parent

/-- An address of a visible global satisfies its rule. -/
theorem verifyOp_of_addressOf {s : Nat} (hkind : m.kind id = .llvm .addressOf)
    (h : m.Typed id [] [.ptr s]) {name : String}
    (hname : (m.op id).attrs.get? AttrName.globalName = some (.symbol name))
    (hglobal : ∃ o, m.lookup? id name = some o ∧ m.kind o = .llvm .global) :
    m.verifyOp id = .ok () := by
  obtain ⟨o, ho, hglobal⟩ := hglobal
  rw [verifyOp, hkind]
  refine verifyAddressOf_eq_ok_iff.2 ⟨h.verifyCounts, ?_, name, o, ?_, ho, hglobal⟩
  · rw [h.resultType]
    rfl
  · rw [attr?, hname]
    rfl

/-- A call of a visible function with its types, which gives nothing, satisfies its rule. -/
theorem verifyOp_of_call {name : String} {signature : Signature} (hkind : m.kind id = .llvm .call)
    (h : m.Typed id signature.inputs [])
    (hcallee : (m.op id).attrs.get? AttrName.callee = some (.symbol name))
    (hresults : signature.results = [])
    (hfunction : ∃ f, m.lookup? id name = some f ∧ (m.kind f).isFunction = true ∧
      m.signature? f = some signature) :
    m.verifyOp id = .ok () := by
  obtain ⟨f, hf, hfunction, hsignature⟩ := hfunction
  rw [verifyOp, hkind]
  refine verifyCall_eq_ok_iff.2 ⟨name, f, signature, ?_, hf, hfunction, hsignature, h.operands, ?_⟩
  · rw [callee?, attr?, hcallee]
    rfl
  · rw [h.results, hresults]

/-- A branch on a truth value to two blocks of its region satisfies its rule. -/
theorem verifyOp_of_condBr (hkind : m.kind id = .llvm .condBr) (h : m.Typed id [Ty.i1] [])
    (hsuccessors : (m.op id).successors.length = 2 ∧ ∀ b ∈ (m.op id).successors,
      some (m.block b).parent = (m.op id).parent.map fun x => (m.block x).parent) :
    m.verifyOp id = .ok () := by
  rw [verifyOp, hkind, Outcome.bind_unit_eq_ok, Outcome.bind_unit_eq_ok, require_eq_ok,
    h.operandType (i := 0) rfl]
  exact ⟨h.verifyCounts, decide_eq_true rfl, verifySuccessors_eq_ok_iff.2 hsuccessors⟩

/-- **A low-level operation of code with its types satisfies the rule of its kind**, if it refers to
what is there and reads no cell.

**Proof sketch.** Most kinds have a typing rule, and the type of the operation is an instance of it
(`OpKind.HasType.accepts`).  Addresses, calls, returns and branches refer to something; their rules
take that from `RefersWell`, and the rest from the type. -/
theorem verifyOp_of_hasType {k : LlvmOp} (hkind : m.kind id = .llvm k)
    (hregions : (m.op id).regions = [])
    (htype : (m.kind id).HasType env (m.op id).attrs (m.typesOf (m.op id).operands)
      (m.typesOf (m.op id).results))
    (hcells : ∀ t ∈ m.typesOf (m.op id).operands, t.element? = none)
    (hrefers : m.RefersWell env id) :
    m.verifyOp id = .ok () := by
  have hrule (h : (OpKind.llvm k).isTyped = true) : m.verifyOp id = .ok () := by
    rw [verifyOp_eq_ok_iff_accepts (hkind ▸ h)]
    rw [hkind] at htype ⊢
    exact ⟨hregions, htype.accepts h hcells⟩
  have htyped : m.Typed id _ _ := ⟨hregions, rfl, rfl⟩
  generalize hins : m.typesOf (m.op id).operands = ins at htype htyped
  generalize houts : m.typesOf (m.op id).results = outs at htype htyped
  rw [hkind] at htype
  cases htype with
  | constant hk | icmp hk | load hk | store hk | ptrToInt hk | intToPtr hk | slot hk =>
    obtain rfl := OpKind.llvm.inj hk
    exact hrule rfl
  | binary hk hbinary =>
    obtain rfl := OpKind.llvm.inj hk
    exact hrule (OpKind.isTyped_of_isBinary hbinary)
  | extend hk hextension =>
    obtain rfl := OpKind.llvm.inj hk
    exact hrule (OpKind.isTyped_of_isExtension hextension)
  | cell hk | solReturn hk => cases hk
  | addressOf hk hname hsymbol =>
    obtain rfl := OpKind.llvm.inj hk
    exact verifyOp_of_addressOf hkind htyped hname (hrefers.global _ hsymbol)
  | gep hk hindices helem =>
    obtain rfl := OpKind.llvm.inj hk
    rw [verifyOp, hkind]
    exact verifyGep_eq_ok_iff.2 ⟨⟨_, helem⟩, _, _, hindices, hins, houts⟩
  | call hk hcallee hsignature hsymbol =>
    obtain rfl := OpKind.llvm.inj hk
    exact verifyOp_of_call hkind htyped hcallee (EraVM.abiSignature?_eq_some hsignature).2
      (hrefers.callee _ _ hsymbol hsignature)
  | ret hk =>
    obtain rfl := OpKind.llvm.inj hk
    rw [verifyOp, hkind]
    exact verifyReturn_eq_ok_iff.2
      ⟨List.map_eq_nil_iff.1 houts, hregions, hrefers.returns hkind⟩
  | unreachable hk =>
    obtain rfl := OpKind.llvm.inj hk
    rw [verifyOp, hkind]
    exact htyped.verifyCounts
  | condBr hk =>
    obtain rfl := OpKind.llvm.inj hk
    exact verifyOp_of_condBr hkind htyped (hrefers.successors hkind)

end Module

end ContractIR
