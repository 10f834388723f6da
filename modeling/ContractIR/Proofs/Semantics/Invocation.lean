import ContractIR.EraVM.Abi
import ContractIR.Proofs.Module.Retention
import ContractIR.Proofs.Semantics.Machine
import Mathlib.Algebra.Group.Nat.Defs

/-!
# Running the code of an invocation

Low-level code that reads and writes globals, computes with words and with pointers to call data,
and passes control on: to another block, to another function, or nowhere.  Functions for arithmetic
over their own slots have their meaning elsewhere; here memory is that of the globals, and it
outlives a function.

How a machine represents pointers to call data is left open: what counts is the word that a pointer
is kept as and the pointer some bytes further on.

## Main definitions

* `ContractIR.EraVM.Pointers` — pointers to call data.
* `ContractIR.EraVM.Scalar`, `Memory`, `State` — what values are, and the state of an invocation.
* `ContractIR.EraVM.exec` — what an operation does to the state.
* `ContractIR.EraVM.runBlock` — runs operations until control leaves them.

## Main results

* `ContractIR.EraVM.runBlock_congr` — running code depends on its operations.
* `ContractIR.EraVM.runBlock_frame` — code leaves the globals whose addresses it does not take.
-/

set_option autoImplicit false

namespace ContractIR

/-! ## Words -/

namespace Word

/-- What a low-level operation makes of two words of one width; shifts by the width or more have no
meaning. -/
def combine (op : LlvmOp) (a b : Word) : Option Word :=
  if h : b.width = a.width then
    match op with
    | .add => some ⟨a.width, a.bits + b.bits.cast h⟩
    | .mul => some ⟨a.width, a.bits * b.bits.cast h⟩
    | .and => some ⟨a.width, a.bits &&& b.bits.cast h⟩
    | .lshr => if b.bits.toNat < a.width then some ⟨a.width, a.bits >>> b.bits.toNat⟩ else none
    | _ => none
  else none

/-- What combines words declares no symbol. -/
theorem isSymbol_of_combine {op : LlvmOp} {a b c : Word} (h : combine op a b = some c) :
    (OpKind.llvm op).isSymbol = false := by
  unfold combine at h
  split at h
  · cases op <;> first | rfl | cases h
  · cases h

/-- Whether a comparison holds of two bit patterns. -/
def holds (p : Predicate) {w : Nat} (a b : BitVec w) : Bool :=
  match p with
  | .eq => a == b
  | .ne => a != b
  | .slt => a.slt b
  | .sle => a.sle b
  | .sgt => b.slt a
  | .sge => b.sle a
  | .ult => a.ult b
  | .ule => a.ule b
  | .ugt => b.ult a
  | .uge => b.ule a

/-- The truth value of a comparison of two words of one width. -/
def compare (p : Predicate) (a b : Word) : Option Word :=
  if h : b.width = a.width then some ⟨1, .ofBool (holds p a.bits (b.bits.cast h))⟩ else none

end Word

namespace EraVM

/-! ## Values -/

/-- The pointers to call data: the word that a pointer is kept as, and the pointer that is some
bytes further on. -/
structure Pointers where
  Ptr : Type
  toWord : Ptr → BitVec wordBits
  advance : Ptr → Nat → Ptr

/-- The length of the call data behind a pointer: it is a part of the word. -/
def Pointers.length (P : Pointers) (p : P.Ptr) : Nat := (P.toWord p).toNat / 2 ^ 96 % 2 ^ 32

/-- What a value is: a word, a pointer to call data, or the address of a slot of a global. -/
inductive Scalar (P : Pointers) where
  | word (w : Word)
  | pointer (p : P.Ptr)
  | slot (name : String) (index : Nat)

variable {P : Pointers}

namespace Scalar

/-- The type of a value. -/
def ty : Scalar P → Ty
  | .word w => w.ty
  | .pointer _ => AddressSpace.generic.ptr
  | .slot _ _ => AddressSpace.stack.ptr

/-- The word that a value is. -/
def word? : Scalar P → Option Word
  | .word w => some w
  | _ => none

/-- The pointer to call data that a value is. -/
def pointer? : Scalar P → Option P.Ptr
  | .pointer p => some p
  | _ => none

/-- The slot whose address a value is. -/
def slot? : Scalar P → Option (String × Nat)
  | .slot name index => some (name, index)
  | _ => none

/-- Address arithmetic: call data is counted in elements of whole bytes, and an address of an array
goes to one of its slots. -/
def offset (elem : Ty) : Scalar P → List Word → Option (Scalar P)
  | .pointer p, [i] => do
    let bits ← elem.width?
    if bits % 8 = 0 then some (.pointer (P.advance p (i.bits.toNat * (bits / 8)))) else none
  | .slot name index, [i, j] =>
    match elem with
    | .array _ length => some (.slot name (index + i.bits.toNat * length + j.bits.toNat))
    | _ => none
  | _, _ => none

end Scalar

/-! ## States -/

/-- What the slots of the globals hold. -/
abbrev Memory (P : Pointers) := String → Nat → Scalar P

namespace Memory

/-- Writes a slot. -/
def set (memory : Memory P) (name : String) (index : Nat) (x : Scalar P) : Memory P :=
  fun g i => if g = name ∧ i = index then x else memory g i

/-- Writes the first slots of some globals. -/
def setAll (memory : Memory P) (x : Scalar P) : List Global → Memory P
  | [] => memory
  | g :: gs => (memory.set g.name 0 x).setAll x gs

/-- Writes slots of a global, from a slot on. -/
def setFrom (memory : Memory P) (name : String) : Nat → List (Scalar P) → Memory P
  | _, [] => memory
  | index, x :: xs => (memory.set name index x).setFrom name (index + 1) xs

/-- The slot that was written. -/
@[simp] theorem set_same (memory : Memory P) (name : String) (index : Nat) (x : Scalar P) :
    memory.set name index x name index = x := by
  simp [set]

/-- Slots of other globals. -/
@[simp] theorem set_of_ne (memory : Memory P) {name g : String} (index i : Nat) (x : Scalar P)
    (h : g ≠ name) : memory.set name index x g i = memory g i := by
  simp [set, h]

/-- Slots of other globals. -/
@[simp] theorem setFrom_of_ne (memory : Memory P) {name g : String} (index i : Nat)
    (xs : List (Scalar P)) (h : g ≠ name) : memory.setFrom name index xs g i = memory g i := by
  induction xs generalizing memory index with
  | nil => rfl
  | cons x xs ih => rw [setFrom, ih, set_of_ne _ _ _ _ h]

/-- Slots before those that were written. -/
theorem setFrom_of_lt (memory : Memory P) (name : String) {index i : Nat} (xs : List (Scalar P))
    (h : i < index) : memory.setFrom name index xs name i = memory name i := by
  induction xs generalizing memory index with
  | nil => rfl
  | cons x xs ih =>
    rw [setFrom, ih _ (Nat.lt_succ_of_lt h), set, if_neg fun hi => Nat.ne_of_lt h hi.2]

/-- The slots that were written. -/
theorem setFrom_add (memory : Memory P) (name : String) (index : Nat) {xs : List (Scalar P)}
    {i : Nat} {x : Scalar P} (h : xs[i]? = some x) :
    memory.setFrom name index xs name (index + i) = x := by
  induction xs generalizing memory index i with
  | nil => cases h
  | cons y xs ih =>
    cases i with
    | zero =>
      obtain rfl : y = x := Option.some.inj h
      rw [setFrom]
      exact (setFrom_of_lt _ _ _ (Nat.lt_succ_self _)).trans (set_same _ _ _ _)
    | succ i =>
      rw [setFrom, ← Nat.add_assoc, Nat.add_right_comm]
      exact ih _ _ h

end Memory

/-- The slots that globals have, with their types. -/
abbrev Slots := String → Nat → Option Ty

/-- The state of an invocation: the values of the function that runs, and the globals. -/
structure State (P : Pointers) where
  values : ValueId → Option (Scalar P)
  memory : Memory P

namespace State

variable (s : State P)

/-- Gives a value. -/
def set (v : ValueId) (x : Scalar P) : State P :=
  { s with values := fun u => if u = v then some x else s.values u }

/-- Writes a slot. -/
def write (name : String) (index : Nat) (x : Scalar P) : State P :=
  { s with memory := s.memory.set name index x }

/-- The state of a function that was just called with some arguments. -/
def enter (params : List ValueId) (args : List (Scalar P)) (memory : Memory P) : State P where
  values v := (params.idxOf? v).bind fun i => args[i]?
  memory := memory

/-- The arguments of a function that was just called are its parameters. -/
theorem values_enter {params : List ValueId} (hnodup : params.Nodup) {args : List (Scalar P)}
    (memory : Memory P) {i : Nat} (hi : i < params.length) :
    (enter params args memory).values params[i] = args[i]? := by
  have hindex : params.idxOf? params[i] = some i := by
    rw [List.idxOf?_eq_some_iff]
    exact ⟨hi, rfl, fun j hj h => Nat.ne_of_lt hj ((hnodup.getElem_inj_iff).1 h)⟩
  simp [enter, hindex]

/-- A value that was set has what it was set to. -/
@[simp] theorem values_set_self (v : ValueId) (x : Scalar P) : (s.set v x).values v = some x := by
  simp [set]

/-- Other values keep what they have. -/
theorem values_set_of_ne {u v : ValueId} (x : Scalar P) (h : u ≠ v) :
    (s.set v x).values u = s.values u := by
  simp [set, h]

/-- Setting a value keeps the memory. -/
@[simp] theorem memory_set (v : ValueId) (x : Scalar P) : (s.set v x).memory = s.memory := rfl

/-- Writing to the memory keeps the values. -/
@[simp] theorem values_write (name : String) (index : Nat) (x : Scalar P) :
    (s.write name index x).values = s.values := rfl

/-- Writing to the memory sets one slot. -/
@[simp] theorem memory_write (name : String) (index : Nat) (x : Scalar P) :
    (s.write name index x).memory = s.memory.set name index x := rfl

end State

/-- What a slot of a global of a type holds: an array has a slot for each element, and anything else
has one. -/
def slotTy? : Ty → Nat → Option Ty
  | .array elem length, index => if index < length then some elem else none
  | ty, index => if index = 0 then some ty else none

/-- The slots of the globals that the body of a module declares. -/
def slotsOf (m : Module) : Slots := fun name index => do
  let id ← m.lookupTop? name
  let ty ← ((m.op id).attrs.get? AttrName.globalType).bind Attr.type?
  if m.kind id = .llvm .global then slotTy? ty index else none

/-! ## Operations -/

/-- What an operation does that does not pass control on; nothing if it cannot run. -/
def exec (slots : Slots) (m : Module) (id : OpId) (s : State P) : Option (State P) :=
  let o := m.op id
  match o.kind, o.operands, o.results with
  | .llvm .constant, [], [r] => do
    let (n, ty) ← (o.attrs.get? AttrName.value).bind Attr.int?
    let w ← ty.width?
    some (s.set r (.word (.ofInt w n)))
  | .llvm .addressOf, [], [r] => do
    let name ← (o.attrs.get? AttrName.globalName).bind Attr.symbol?
    if (slots name 0).isSome then some (s.set r (.slot name 0)) else none
  | .llvm .store, [v, p], [] => do
    let x ← s.values v
    let (name, index) ← (s.values p).bind Scalar.slot?
    if slots name index = some x.ty then some (s.write name index x) else none
  | .llvm .load, [p], [r] => do
    let (name, index) ← (s.values p).bind Scalar.slot?
    let x := s.memory name index
    if slots name index = some x.ty ∧ m.typeOf r = x.ty then some (s.set r x) else none
  | .llvm .gep, p :: indices, [r] => do
    let base ← s.values p
    let words ← indices.mapM fun i => (s.values i).bind Scalar.word?
    let elem ← (o.attrs.get? AttrName.elemType).bind Attr.type?
    let x ← base.offset elem words
    some (s.set r x)
  | .llvm .ptrToInt, [p], [r] => do
    let q ← (s.values p).bind Scalar.pointer?
    if m.typeOf r = Ty.word then some (s.set r (.word ⟨wordBits, P.toWord q⟩)) else none
  | .llvm .icmp, [v, w], [r] => do
    let p ← ((o.attrs.get? AttrName.predicate).bind Attr.str?).bind Predicate.ofName?
    let a ← (s.values v).bind Scalar.word?
    let b ← (s.values w).bind Scalar.word?
    let c ← a.compare p b
    some (s.set r (.word c))
  | .llvm op, [v, w], [r] => do
    let a ← (s.values v).bind Scalar.word?
    let b ← (s.values w).bind Scalar.word?
    let c ← a.combine op b
    some (s.set r (.word c))
  | _, _, _ => none

/-- Runs operations none of which passes control on. -/
def execAll (slots : Slots) (m : Module) : List OpId → State P → Option (State P)
  | [], s => some s
  | id :: ids, s => (exec slots m id s).bind (execAll slots m ids)

/-! ## Control -/

/-- How control leaves the operations of a block: to another block, to another function, with the
operations that are left when it comes back, or nowhere, because this place is never reached. -/
inductive Exit (P : Pointers) where
  | branch (target : BlockId)
  | call (callee : String) (args : List (Scalar P)) (rest : List OpId)
  | unreachable

/-- How an operation passes control on, with some operations behind it. -/
def exit? (m : Module) (id : OpId) (rest : List OpId) (s : State P) : Option (Exit P) :=
  let o := m.op id
  match o.kind, o.operands, o.successors with
  | .llvm .condBr, [v], [yes, no] => do
    let w ← (s.values v).bind Scalar.word?
    if w.ty = Ty.i1 then some (.branch (if w.bits.toNat = 1 then yes else no)) else none
  | .llvm .call, args, [] => do
    let callee ← (o.attrs.get? AttrName.callee).bind Attr.symbol?
    let xs ← args.mapM s.values
    some (.call callee xs rest)
  | .llvm .unreachable, [], [] => some .unreachable
  | _, _, _ => none

/-- Runs operations until control leaves them. -/
def runBlock (slots : Slots) (m : Module) :
    List OpId → State P → Option (Exit P × State P)
  | [], _ => none
  | id :: ids, s =>
    match exec slots m id s with
    | some t => runBlock slots m ids t
    | none => (exit? m id ids s).map fun e => (e, s)

section Run

variable {slots : Slots} {m : Module}

/-- One piece of code after another. -/
theorem execAll_append (ids more : List OpId) (s : State P) :
    execAll slots m (ids ++ more) s = (execAll slots m ids s).bind (execAll slots m more) := by
  induction ids generalizing s with
  | nil => rfl
  | cons id ids ih =>
    rw [List.cons_append, execAll, execAll]
    cases exec slots m id s with
    | none => rfl
    | some t => exact ih t

/-- Operations in front do what they do, and then the block goes on. -/
theorem runBlock_append {ids : List OpId} {s t : State P} (h : execAll slots m ids s = some t)
    (rest : List OpId) : runBlock slots m (ids ++ rest) s = runBlock slots m rest t := by
  induction ids generalizing s with
  | nil =>
    cases h
    rfl
  | cons id ids ih =>
    rw [execAll, Option.bind_eq_some_iff] at h
    obtain ⟨u, hu, hrest⟩ := h
    rw [List.cons_append, runBlock, hu]
    exact ih hrest

/-- What an operation does depends on the operation and on the types of its results. -/
theorem exec_congr {n : Module} {id : OpId} (hop : m.SameOp n id)
    (htypes : ∀ v ∈ (m.op id).results, n.typeOf v = m.typeOf v) (s : State P) :
    exec slots n id s = exec slots m id s := by
  obtain ⟨b, hb⟩ := hop
  unfold exec
  simp only [hb]
  split
  all_goals first
    | rfl
    | (rename_i hresults; simp only [htypes _ (hresults ▸ List.mem_singleton_self _)])

/-- What code does depends on its operations. -/
theorem execAll_congr {n : Module} {ids : List OpId} (hop : ∀ id ∈ ids, m.SameOp n id)
    (htypes : ∀ id ∈ ids, ∀ v ∈ (m.op id).results, n.typeOf v = m.typeOf v) (s : State P) :
    execAll slots n ids s = execAll slots m ids s := by
  induction ids generalizing s with
  | nil => rfl
  | cons id ids ih =>
    rw [List.forall_mem_cons] at hop htypes
    rw [execAll, execAll, exec_congr hop.1 htypes.1]
    cases exec slots m id s with
    | none => rfl
    | some t => exact ih hop.2 htypes.2 t

/-- How an operation passes control on depends on the operation. -/
theorem exit?_congr {n : Module} {id : OpId} (hop : m.SameOp n id) (rest : List OpId)
    (s : State P) : exit? n id rest s = exit? m id rest s := by
  obtain ⟨b, hb⟩ := hop
  unfold exit?
  simp only [hb]

/-- How control leaves operations depends on them. -/
theorem runBlock_congr {n : Module} {ids : List OpId} (hop : ∀ id ∈ ids, m.SameOp n id)
    (htypes : ∀ id ∈ ids, ∀ v ∈ (m.op id).results, n.typeOf v = m.typeOf v) (s : State P) :
    runBlock slots n ids s = runBlock slots m ids s := by
  induction ids generalizing s with
  | nil => rfl
  | cons id ids ih =>
    rw [List.forall_mem_cons] at hop htypes
    rw [runBlock, runBlock, exec_congr hop.1 htypes.1, exit?_congr hop.1]
    cases exec slots m id s with
    | none => rfl
    | some t => exact ih hop.2 htypes.2 t

/-- What runs is low-level code, and no symbol. -/
theorem plain_of_exec {id : OpId} {s t : State P} (h : exec slots m id s = some t) :
    (m.kind id).dialect = .llvm ∧ (m.kind id).isSymbol = false := by
  unfold exec at h
  simp only at h
  split at h
  all_goals first
    | (rename_i hkind _ _; rw [Module.kind, hkind]; exact ⟨rfl, rfl⟩)
    | cases h
    | skip
  rename_i hkind _ _
  simp only [Option.bind_eq_bind, Option.bind_eq_some_iff] at h
  obtain ⟨a, -, b, -, c, hc, -⟩ := h
  rw [Module.kind, hkind]
  exact ⟨rfl, Word.isSymbol_of_combine hc⟩

/-- Code that runs is low-level code, and declares no symbols. -/
theorem plain_of_execAll {ids : List OpId} {s t : State P} (h : execAll slots m ids s = some t) :
    ∀ id ∈ ids, (m.kind id).dialect = .llvm ∧ (m.kind id).isSymbol = false := by
  induction ids generalizing s with
  | nil => simp
  | cons id ids ih =>
    rw [execAll, Option.bind_eq_some_iff] at h
    obtain ⟨u, hu, hrest⟩ := h
    exact List.forall_mem_cons.2 ⟨plain_of_exec hu, ih hrest⟩

end Run

/-! ## Addresses -/

/-- An operation takes the address of a global. -/
def TakesAddress (m : Module) (id : OpId) (name : String) : Prop :=
  m.kind id = .llvm .addressOf ∧ (m.attr? id AttrName.globalName).bind Attr.symbol? = some name

/-- A value is no address of a slot of a global. -/
def Scalar.Avoids (x : Scalar P) (name : String) : Prop := ∀ i, x ≠ .slot name i

/-- Nothing in a state is an address of a slot of a global. -/
structure State.Avoids (s : State P) (name : String) : Prop where
  values : ∀ v x, s.values v = some x → x.Avoids name
  memory : ∀ g i, (s.memory g i).Avoids name

section Frame

variable {slots : Slots} {m : Module} {name : String} {s t : State P}

/-- A word points into no global. -/
theorem Scalar.avoids_word (w : Word) : (Scalar.word w : Scalar P).Avoids name := fun _ => nofun

/-- A pointer of the invocation points into no global. -/
theorem Scalar.avoids_pointer (p : P.Ptr) : (Scalar.pointer p : Scalar P).Avoids name :=
  fun _ => nofun

/-- Address arithmetic stays in a global. -/
theorem Scalar.Avoids.offset {x y : Scalar P} (hx : x.Avoids name) {elem : Ty} {words : List Word}
    (h : x.offset elem words = some y) : y.Avoids name := by
  unfold Scalar.offset at h
  split at h
  · simp only [Option.bind_eq_bind, Option.bind_eq_some_iff] at h
    obtain ⟨bits, -, h⟩ := h
    split at h
    · cases h
      exact avoids_pointer _
    · cases h
  · split at h
    · cases h
      rintro i ⟨⟩
      exact hx _ rfl
    · cases h
  · cases h

/-- A function was just called with values that are no addresses of a global. -/
theorem State.avoids_enter {params : List ValueId} {args : List (Scalar P)} {memory : Memory P}
    (hargs : ∀ x ∈ args, x.Avoids name) (hmemory : ∀ g i, (memory g i).Avoids name) :
    (State.enter params args memory).Avoids name where
  values v x hx := by
    obtain ⟨i, -, hx⟩ := Option.bind_eq_some_iff.1 hx
    exact hargs x (List.mem_of_getElem? hx)
  memory := hmemory

/-- Giving a value. -/
theorem State.Avoids.set (hs : s.Avoids name) (v : ValueId) {x : Scalar P} (hx : x.Avoids name) :
    (s.set v x).Avoids name where
  values u y hy := by
    rw [State.set] at hy
    simp only at hy
    split at hy
    · cases hy
      exact hx
    · exact hs.values u y hy
  memory := hs.memory

/-- Writing a slot. -/
theorem State.Avoids.write (hs : s.Avoids name) (g : String) (index : Nat) {x : Scalar P}
    (hx : x.Avoids name) : (s.write g index x).Avoids name where
  values := hs.values
  memory g' i := by
    rw [State.memory_write, Memory.set]
    split
    · exact hx
    · exact hs.memory g' i

/-- **What does not take the address of a global leaves it.**

**Proof sketch.** One case for each kind.  What an operation writes to a value is a word, or
comes from values and cells that avoid the global; a store goes through an address that avoids it,
so its cells stay. -/
theorem exec_frame {id : OpId} (h : exec slots m id s = some t) (hs : s.Avoids name)
    (haddress : ¬TakesAddress m id name) :
    t.Avoids name ∧ ∀ i, t.memory name i = s.memory name i := by
  unfold exec at h
  simp only at h
  split at h
  case h_9 => cases h
  all_goals simp only [Option.bind_eq_bind, Option.bind_eq_some_iff] at h
  case h_1 =>
    obtain ⟨⟨n, ty⟩, -, w, -, h⟩ := h
    cases h
    exact ⟨hs.set _ (Scalar.avoids_word _), fun _ => rfl⟩
  case h_2 hkind _ _ =>
    obtain ⟨g, hg, h⟩ := h
    split at h
    · cases h
      refine ⟨hs.set _ ?_, fun _ => rfl⟩
      rintro i ⟨⟩
      exact haddress ⟨hkind, Option.bind_eq_some_iff.2 hg⟩
    · cases h
  case h_3 =>
    obtain ⟨x, hx, ⟨g, index⟩, ⟨y, hy, hslot⟩, h⟩ := h
    split at h
    · cases h
      refine ⟨hs.write g index (hs.values _ _ hx), fun i => Memory.set_of_ne _ _ _ _ ?_⟩
      rintro rfl
      cases y <;> cases hslot
      exact hs.values _ _ hy index rfl
    · cases h
  case h_4 =>
    obtain ⟨⟨g, index⟩, -, h⟩ := h
    split at h
    · cases h
      exact ⟨hs.set _ (hs.memory g index), fun _ => rfl⟩
    · cases h
  case h_5 =>
    obtain ⟨base, hbase, words, -, elem, -, x, hx, h⟩ := h
    cases h
    exact ⟨hs.set _ ((hs.values _ _ hbase).offset hx), fun _ => rfl⟩
  case h_6 =>
    obtain ⟨q, -, h⟩ := h
    split at h
    · cases h
      exact ⟨hs.set _ (Scalar.avoids_word _), fun _ => rfl⟩
    · cases h
  case h_7 =>
    obtain ⟨p, -, a, -, b, -, c, -, h⟩ := h
    cases h
    exact ⟨hs.set _ (Scalar.avoids_word _), fun _ => rfl⟩
  case h_8 =>
    obtain ⟨a, -, b, -, c, -, h⟩ := h
    cases h
    exact ⟨hs.set _ (Scalar.avoids_word _), fun _ => rfl⟩

/-- **Code that does not take the address of a global leaves it.** -/
theorem runBlock_frame {ids : List OpId} {e : Exit P} (h : runBlock slots m ids s = some (e, t))
    (hs : s.Avoids name) (haddress : ∀ id ∈ ids, ¬TakesAddress m id name) (i : Nat) :
    t.memory name i = s.memory name i := by
  induction ids generalizing s with
  | nil => cases h
  | cons id ids ih =>
    rw [List.forall_mem_cons] at haddress
    rw [runBlock] at h
    split at h
    · rename_i u hu
      obtain ⟨hu', hmemory⟩ := exec_frame hu hs haddress.1
      rw [ih h hu' haddress.2, hmemory i]
    · obtain ⟨e', -, heq⟩ := Option.map_eq_some_iff.1 h
      cases heq
      rfl

end Frame

end EraVM

end ContractIR
