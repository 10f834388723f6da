import ContractIR.Proofs.Semantics.Invocation
import ContractIR.Proofs.Typing.Ops

/-!
# What code does to its surroundings

Straight-line code computes words, turns words into pointers, writes to memory behind pointers, and
calls functions.  Running such code gives the writes and the calls, in order.  An operation that has
a low-level form does what that form does, so that code can be followed while it is converted.

## Main definitions

* `ContractIR.EraVM.Datum` — words, and pointers that are made from words.
* `ContractIR.EraVM.Effect` — a write to memory, or a call.
* `ContractIR.EraVM.perform` — the effects of code, and the values that it computes.
* `ContractIR.EraVM.ActsLike` — an operation does in one module what it does in another.

## Main results

* `ContractIR.EraVM.perform_append` — the effects of one piece of code after another.
* `ContractIR.EraVM.perform_congr` — code does what its operations do.
-/

set_option autoImplicit false

namespace ContractIR.EraVM

/-! ## Values and effects -/

/-- What a value is: a word, or the pointer of a type to an address. -/
inductive Datum where
  | word (w : Word)
  | pointer (ty : Ty) (address : Word)
deriving DecidableEq

namespace Datum

/-- The word that a value is. -/
def word? : Datum → Option Word
  | .word w => some w
  | .pointer _ _ => none

/-- The pointer that a value is. -/
def pointer? : Datum → Option (Ty × Word)
  | .word _ => none
  | .pointer ty address => some (ty, address)

/-- A number as a word of the machine. -/
def number (n : Nat) : Datum := .word (.ofInt wordBits n)

end Datum

/-- What code does to its surroundings: it writes a value behind a pointer of a type to an address,
or it calls a function. -/
inductive Effect where
  | store (ty : Ty) (address : Word) (content : Datum)
  | call (callee : String) (args : List Datum)
deriving DecidableEq

/-- The values that are known. -/
abbrev Values := ValueId → Option Datum

/-- Gives a value. -/
def Values.set (values : Values) (v : ValueId) (d : Datum) : Values :=
  fun u => if u = v then some d else values u

/-- A value that was set has what it was set to. -/
@[simp] theorem Values.set_self (values : Values) (v : ValueId) (d : Datum) :
    values.set v d v = some d := by
  simp [set]

/-- Other values keep what they have. -/
theorem Values.set_of_ne (values : Values) {u v : ValueId} (d : Datum) (h : u ≠ v) :
    values.set v d u = values u := by
  simp [set, h]

/-! ## Code -/

/-- What an operation does, in its low-level form; nothing if it cannot run. -/
def act (m : Module) (id : OpId) (values : Values) : Option (List Effect × Values) :=
  let o := m.op id
  match o.kind.low, o.operands, o.results with
  | .llvm .constant, [], [r] => do
    let (n, ty) ← (o.attrs.get? AttrName.value).bind Attr.int?
    let w ← ty.width?
    some ([], values.set r (.word (.ofInt w n)))
  | .llvm .intToPtr, [v], [r] => do
    let address ← (values v).bind Datum.word?
    some ([], values.set r (.pointer (m.typeOf r) address))
  | .llvm .store, [v, p], [] => do
    let content ← values v
    let (ty, address) ← (values p).bind Datum.pointer?
    some ([.store ty address content], values)
  | .llvm .call, args, [] => do
    let callee ← (o.attrs.get? AttrName.callee).bind Attr.symbol?
    let data ← args.mapM values
    some ([.call callee data], values)
  | .llvm op, [v, w], [r] => do
    let a ← (values v).bind Datum.word?
    let b ← (values w).bind Datum.word?
    let c ← a.combine op b
    some ([], values.set r (.word c))
  | _, _, _ => none

/-- The effects of operations that run one after the other, and the values that are known then. -/
def perform (m : Module) : List OpId → Values → Option (List Effect × Values)
  | [], values => some ([], values)
  | id :: ids, values => do
    let (effects, values) ← act m id values
    let (more, values) ← perform m ids values
    some (effects ++ more, values)

section Perform

variable {m n : Module}

/-- **One piece of code after another.** -/
theorem perform_append {ids more : List OpId} {s t u : Values} {effects later : List Effect}
    (h : perform m ids s = some (effects, t)) (k : perform m more t = some (later, u)) :
    perform m (ids ++ more) s = some (effects ++ later, u) := by
  induction ids generalizing s effects with
  | nil =>
    cases h
    exact k
  | cons id ids ih =>
    simp only [perform, Option.bind_eq_bind, Option.bind_eq_some_iff] at h
    obtain ⟨⟨first, s'⟩, hid, ⟨rest, t'⟩, hids, heq⟩ := h
    cases heq
    simp only [List.cons_append, perform, hid, Option.bind_eq_bind, Option.bind_some, ih hids,
      List.append_assoc]

/-- An operation does in one module what it does in another: it has the same low-level kind,
operands and results, the attributes that conversion does not set, and the type of the pointer that
it makes. -/
structure ActsLike (m n : Module) (id : OpId) : Prop where
  kind : (n.kind id).low = (m.kind id).low
  operands : (n.op id).operands = (m.op id).operands
  results : (n.op id).results = (m.op id).results
  attrs : ∀ name, name ≠ AttrName.linkage → name ≠ AttrName.elemType →
    (n.op id).attrs.get? name = (m.op id).attrs.get? name
  types : (m.kind id).dialect = .llvm → ∀ v ∈ (m.op id).results, n.typeOf v = m.typeOf v

/-- Only a low-level operation makes a pointer from a word. -/
theorem dialect_of_intToPtr {k : OpKind} (h : k.low = .llvm .intToPtr) : k.dialect = .llvm := by
  revert h
  rcases k with k | k | k | k | k <;> cases k <;> simp [OpKind.low, OpKind.dialect]

/-- What an operation does depends on how it is read. -/
theorem act_congr {id : OpId} (h : ActsLike m n id) (values : Values) :
    act n id values = act m id values := by
  have hkind : (n.op id).kind.low = (m.op id).kind.low := h.kind
  have hvalue := h.attrs AttrName.value (by decide) (by decide)
  have hcallee := h.attrs AttrName.callee (by decide) (by decide)
  unfold act
  simp only [hkind, h.operands, h.results, hvalue, hcallee]
  split
  all_goals try rfl
  rename_i r hlow _ hresults
  rw [h.types (dialect_of_intToPtr hlow) r (by rw [hresults]; exact List.mem_singleton_self r)]

/-- **Code does what its operations do.** -/
theorem perform_congr {ids : List OpId} (h : ∀ id ∈ ids, ActsLike m n id) (values : Values) :
    perform n ids values = perform m ids values := by
  induction ids generalizing values with
  | nil => rfl
  | cons id ids ih =>
    rw [List.forall_mem_cons] at h
    simp only [perform, act_congr h.1, ih h.2]

/-- Only an operation that writes to memory has a write as its effect.

**Proof sketch.** By the kinds that have effects.  Each of the others lists effects of its own,
and a write is not among them. -/
theorem kind_of_store_mem_act {id : OpId} {s t : Values} {effects : List Effect}
    (h : act m id s = some (effects, t)) {ty : Ty} {address : Word} {content : Datum}
    (hstore : .store ty address content ∈ effects) : (m.kind id).low = .llvm .store := by
  simp only [act, Option.bind_eq_bind] at h
  split at h
  · obtain ⟨_, -, h⟩ := Option.bind_eq_some_iff.1 h
    obtain ⟨_, -, h⟩ := Option.bind_eq_some_iff.1 h
    cases h
    cases hstore
  · obtain ⟨_, -, h⟩ := Option.bind_eq_some_iff.1 h
    cases h
    cases hstore
  · rename_i hkind _ _
    exact hkind
  · obtain ⟨_, -, h⟩ := Option.bind_eq_some_iff.1 h
    obtain ⟨_, -, h⟩ := Option.bind_eq_some_iff.1 h
    cases h
    simp at hstore
  · obtain ⟨_, -, h⟩ := Option.bind_eq_some_iff.1 h
    obtain ⟨_, -, h⟩ := Option.bind_eq_some_iff.1 h
    obtain ⟨_, -, h⟩ := Option.bind_eq_some_iff.1 h
    cases h
    cases hstore
  · cases h

/-- **Code that writes to memory** has an operation that does. -/
theorem exists_store_of_perform {ids : List OpId} {s t : Values} {effects : List Effect}
    (h : perform m ids s = some (effects, t)) {ty : Ty} {address : Word} {content : Datum}
    (hstore : .store ty address content ∈ effects) :
    ∃ o ∈ ids, (m.kind o).low = .llvm .store := by
  induction ids generalizing s effects with
  | nil =>
    cases h
    cases hstore
  | cons id ids ih =>
    simp only [perform, Option.bind_eq_bind, Option.bind_eq_some_iff] at h
    obtain ⟨⟨first, s'⟩, hid, ⟨rest, t'⟩, hids, heq⟩ := h
    cases heq
    rcases List.mem_append.1 hstore with hfirst | hrest
    · exact ⟨id, by simp, kind_of_store_mem_act hid hfirst⟩
    · obtain ⟨o, ho, hkind⟩ := ih hids hrest
      exact ⟨o, List.mem_cons_of_mem id ho, hkind⟩

end Perform

end ContractIR.EraVM
