import ContractIR.Proofs.Module.Extension
import ContractIR.Proofs.Outcome

/-!
# Building only adds

Whatever a step with a builder makes, it puts at the builder's place or into blocks that it made
itself.  So if the builder stands in a block of `B`, the module grows in the blocks of `B` only.
This is said of every step as a property of its own and is kept when steps follow each other; steps
that go to another place need that place to be new, or in `B`.

## Main definitions

* `ContractIR.Builder.Grows` — the builder's module grew out of another one, and so did its place.
* `ContractIR.Adds` — a step lets a module grow, and what it answers.

## Main results

* `ContractIR.adds_op`, `ContractIR.adds_value`, `ContractIR.adds_appendBlock` — operations and
  blocks.
* `ContractIR.extends_of_build` — a step with a builder lets the module grow.
-/

set_option autoImplicit false

namespace ContractIR

/-- The builder's module grew out of `m` in the blocks of `B`, and the builder stands in one of
these or in a new block. -/
structure Builder.Grows (B : BlockId → Prop) (m : Module) (b : Builder) : Prop where
  extends_ir : Module.Extends B m b.ir
  place : ∀ p, b.point = some p → B p.block ∨ m.blocks.size ≤ p.block.index

/-- Where the builder's module grew out of `m`, a step that succeeds lets it grow further, and has
an answer with `Q`. -/
def Adds {ε α : Type} (B : BlockId → Prop) (m : Module) (x : EStateM ε Builder α)
    (Q : α → Prop := fun _ => True) : Prop :=
  ∀ (b c : Builder) (a : α), b.Grows B m → x.run b = .ok a c → c.Grows B m ∧ Q a

section Steps

variable {ε α β : Type} {B : BlockId → Prop} {m : Module}

/-! ## Steps after each other -/

namespace Adds

/-- An answer adds nothing. -/
theorem pure {a : α} {Q : α → Prop} (ha : Q a) : Adds B m (pure a : EStateM ε Builder α) Q := by
  intro b c a' hb h
  rw [EStateM.run_pure] at h
  cases h
  exact ⟨hb, ha⟩

/-- A failure adds nothing. -/
theorem throw {Q : α → Prop} (e : ε) : Adds B m (throw e : EStateM ε Builder α) Q := by
  intro b c a hb h
  have h : EStateM.Result.error e b = .ok a c := h
  cases h

/-- One step after another one. -/
theorem bind {x : EStateM ε Builder α} {f : α → EStateM ε Builder β} {Q : α → Prop}
    {R : β → Prop} (hx : Adds B m x Q) (hf : ∀ a, Q a → Adds B m (f a) R) :
    Adds B m (x >>= f) R := by
  intro b d a hb h
  obtain ⟨a', c, hxc, hfd⟩ := Outcome.run_bind_eq_ok.1 h
  obtain ⟨hc, hQ⟩ := hx b c a' hb hxc
  exact hf a' hQ c d a hc hfd

/-- A choice of two steps adds what the chosen one adds. -/
theorem ite {p : Prop} [Decidable p] {x y : EStateM ε Builder α} {Q : α → Prop}
    (hx : Adds B m x Q) (hy : Adds B m y Q) : Adds B m (if p then x else y) Q := by
  split
  · exact hx
  · exact hy

/-- What a step answers may be forgotten. -/
theorem forget {x : EStateM ε Builder α} {Q : α → Prop} (hx : Adds B m x Q) : Adds B m x :=
  fun b c a hb h => ⟨(hx b c a hb h).1, trivial⟩

/-- Building as a step of compilation. -/
theorem liftM {x : Build α} {Q : α → Prop} (hx : Adds B m x Q) :
    Adds B m (liftM x : Lower α) Q := by
  intro b c a hb h
  rw [run_liftM] at h
  cases hrun : x.run b with
  | ok a' d =>
    rw [hrun] at h
    cases h
    exact hx b _ _ hb hrun
  | error e d =>
    rw [hrun] at h
    cases h

end Adds

/-! ## Looking at the module -/

/-- Looking at the builder adds nothing. -/
theorem adds_get : Adds B m (get : EStateM ε Builder Builder) (Builder.Grows B m) := by
  intro b c a hb h
  rw [EStateM.run_get] at h
  cases h
  exact ⟨hb, hb⟩

/-- The module at which a step looks grew out of `m`. -/
theorem adds_ir : Adds B m Build.ir (Module.Extends B m) :=
  adds_get.bind fun _ hb => .pure hb.extends_ir

/-- Looking at a type adds nothing. -/
theorem adds_typeOf (v : ValueId) : Adds B m (Build.typeOf v) :=
  adds_ir.bind fun _ _ => .pure trivial

/-- Looking at the arguments of a block adds nothing. -/
theorem adds_argsOf (b : BlockId) : Adds B m (Build.argsOf b) :=
  adds_ir.bind fun _ _ => .pure trivial

/-- The check of two integers adds nothing. -/
theorem adds_sameInteger (kind : OpKind) (lhs rhs : ValueId) :
    Adds B m (Build.sameInteger kind lhs rhs) :=
  (adds_typeOf lhs).bind fun _ _ => (adds_typeOf rhs).bind fun _ _ =>
    .ite (.pure trivial) (.throw _)

/-! ## Going to a place -/

/-- A location adds nothing. -/
theorem adds_setLocation (location : Location) : Adds B m (Build.setLocation location) := by
  intro b c a hb h
  cases h
  exact ⟨⟨hb.extends_ir, hb.place⟩, trivial⟩

/-- Going to a place in a block of `B`, or in a new one. -/
theorem adds_goTo {block : BlockId} (hblock : B block ∨ m.blocks.size ≤ block.index)
    (index : Option Nat) :
    Adds B m (modify fun b => { b with point := some ⟨block, index⟩ } : Build Unit) := by
  intro b c a hb h
  cases h
  refine ⟨⟨hb.extends_ir, fun p hp => ?_⟩, trivial⟩
  obtain rfl := Option.some.inj hp
  exact hblock

/-- Going to the place before an operation that was there, in a block of `B`. -/
theorem adds_before {id : OpId} (hid : id.index < m.ops.size)
    (hparent : ∀ block, (m.op id).parent = some block → B block) : Adds B m (Build.before id) := by
  have hposition : Adds B m (Build.positionOf id) fun place => B place.1 := by
    refine adds_ir.bind fun n hn => ?_
    rw [hn.ops id hid]
    split
    · exact .throw _
    · rename_i block hblock
      split
      · exact .throw _
      · exact .pure (hparent block hblock)
  exact hposition.bind fun place hplace => adds_goTo (.inl hplace) (some place.2)

/-! ## Operations and blocks -/

/-- The operation that a builder creates is the next one. -/
theorem run_op_eq_ok {spec : Module.OpSpec} {b c : Builder} {id : OpId}
    (h : (Build.op spec).run b = .ok id c) :
    ∃ p, b.point = some p ∧ id = ⟨b.ir.ops.size⟩ ∧ c.point = some p.next ∧
      c.ir = b.ir.addOp spec b.location p.block p.index := by
  obtain ⟨ir, point, location⟩ := b
  cases point with
  | none => cases h
  | some p =>
    cases h
    exact ⟨p, rfl, rfl, rfl, rfl⟩

/-- An operation is added, with a new number. -/
theorem adds_op (spec : Module.OpSpec) :
    Adds B m (Build.op spec) fun id => m.ops.size ≤ id.index := by
  intro b c id hb h
  obtain ⟨p, hp, rfl, hpoint, hir⟩ := run_op_eq_ok h
  have hplace := hb.place p hp
  refine ⟨⟨hir ▸ hb.extends_ir.addOp spec b.location hplace p.index, fun q hq => ?_⟩,
    hb.extends_ir.size_ops⟩
  obtain rfl : p.next = q := by simpa [hpoint] using hq
  exact hplace

/-- An operation with a result is added. -/
theorem adds_value (spec : Module.OpSpec) : Adds B m (Build.value spec) :=
  (adds_op spec).bind fun _ _ => adds_ir.bind fun _ _ => .pure trivial

/-- A block for an operation that is new. -/
theorem adds_appendBlock {id : OpId} (hid : m.ops.size ≤ id.index) (index : Nat)
    (argTypes : List Ty) :
    Adds B m (Build.appendBlock id index argTypes) fun block => m.blocks.size ≤ block.index := by
  intro b c block hb h
  unfold Build.appendBlock at h
  rw [EStateM.run_bind, EStateM.run_get] at h
  cases hr : (b.ir.op id).regions[index]? with
  | none =>
    simp only [hr] at h
    cases h
  | some r =>
    simp only [hr] at h
    cases h
    have hnew := hb.extends_ir.new_regions id hid r (List.mem_of_getElem? hr)
    exact ⟨⟨hb.extends_ir.appendBlock hnew argTypes, hb.place⟩, hb.extends_ir.size_blocks⟩

/-! ## The dialects -/

/-- A constant of either level is added. -/
theorem adds_integer (kind : OpKind) (n : Int) (ty : Ty) : Adds B m (Build.integer kind n ty) :=
  .ite (adds_value _) (.throw _)

/-- A constant is added. -/
theorem adds_constant (n : Int) (ty : Ty) : Adds B m (Build.constant n ty) := adds_integer _ n ty

/-- Arithmetic of either level is added. -/
theorem adds_binary (kind : OpKind) (lhs rhs : ValueId) : Adds B m (Build.binary kind lhs rhs) :=
  (adds_sameInteger kind lhs rhs).bind fun _ _ => adds_value _

/-- A return from contract code is added. -/
theorem adds_solReturn (offset length : ValueId) : Adds B m (Build.solReturn offset length) :=
  (adds_sameInteger _ offset length).bind fun _ _ => (adds_op _).forget

/-- A call is added. -/
theorem adds_funcCall (callee : String) (args : List ValueId) (results : List Ty) :
    Adds B m (Build.funcCall callee args results) := (adds_op _).forget

namespace Llvm

/-- A function, with the block that it is entered at, if it has one. -/
theorem adds_func (name : String) (signature : Signature) (linkage : String) (hasBody : Bool) :
    Adds B m (Build.Llvm.func name signature linkage hasBody) fun made =>
      m.ops.size ≤ made.1.index ∧ ∀ entry, made.2 = some entry → m.blocks.size ≤ entry.index := by
  refine (adds_op _).bind fun id hid => .ite ?_ (.pure ⟨hid, by simp⟩)
  exact (adds_appendBlock hid 0 _).bind fun entry hentry => .pure ⟨hid, by simpa using hentry⟩

/-- The address of a global is added. -/
theorem adds_addressOf (name : String) (ty : Ty) : Adds B m (Build.Llvm.addressOf name ty) :=
  adds_value _

/-- A low-level constant is added. -/
theorem adds_constant (n : Int) (ty : Ty) : Adds B m (Build.Llvm.constant n ty) :=
  adds_integer _ n ty

/-- Low-level arithmetic is added. -/
theorem adds_binary (kind : LlvmOp) (lhs rhs : ValueId) :
    Adds B m (Build.Llvm.binary kind lhs rhs) :=
  .ite (ContractIR.adds_binary _ lhs rhs) (.throw _)

/-- A low-level comparison is added. -/
theorem adds_icmp (p : Predicate) (lhs rhs : ValueId) : Adds B m (Build.Llvm.icmp p lhs rhs) :=
  (adds_sameInteger _ lhs rhs).bind fun _ _ => adds_value _

/-- A reading behind a pointer is added. -/
theorem adds_load (ptr : ValueId) (ty : Ty) : Adds B m (Build.Llvm.load ptr ty) :=
  (adds_typeOf ptr).bind fun _ _ => .ite (adds_value _) (.throw _)

/-- A writing behind a pointer is added. -/
theorem adds_store (v ptr : ValueId) : Adds B m (Build.Llvm.store v ptr) :=
  (adds_typeOf ptr).bind fun _ _ => .ite (adds_op _).forget (.throw _)

/-- The number of a pointer is added. -/
theorem adds_ptrToInt (ptr : ValueId) (target : Ty) : Adds B m (Build.Llvm.ptrToInt ptr target) :=
  (adds_typeOf ptr).bind fun _ _ => .ite (adds_value _) (.throw _)

/-- The pointer of a number is added. -/
theorem adds_intToPtr (v : ValueId) (target : Ty) : Adds B m (Build.Llvm.intToPtr v target) :=
  (adds_typeOf v).bind fun _ _ => .ite (adds_value _) (.throw _)

/-- Address arithmetic is added. -/
theorem adds_gep (base : ValueId) (indices : List ValueId) (elem : Ty) :
    Adds B m (Build.Llvm.gep base indices elem) :=
  (adds_typeOf base).bind fun _ _ => .ite (adds_value _) (.throw _)

/-- A branch gets its successors after it was created. -/
theorem adds_condBr (condition : ValueId) (thenBlock elseBlock : BlockId) :
    Adds B m (Build.Llvm.condBr condition thenBlock elseBlock) := by
  refine (adds_typeOf condition).bind fun _ _ => .ite ?_ (.throw _)
  refine (adds_op _).bind fun id hid => ?_
  have hedit : Adds B m (Build.edit fun n => n.setSuccessors id [thenBlock, elseBlock]) := by
    intro b c a hb h
    cases h
    have hext := hb.extends_ir.modifyOp hid
      (f := fun o => { o with successors := [thenBlock, elseBlock] }) (fun _ => rfl)
      (fun _ => rfl) (fun _ => rfl)
    exact ⟨⟨hext, hb.place⟩, trivial⟩
  exact hedit.bind fun _ _ => .pure trivial

end Llvm

end Steps

/-! ## Whole buildings -/

/-- **A step with a builder lets the module grow**, if it starts in a place where it may. -/
theorem extends_of_build {α : Type} {B : BlockId → Prop} {m n : Module} {start : Module → Builder}
    {x : Lower α} {a : α} {Q : α → Prop} (hstart : (start m).Grows B m) (hx : Adds B m x Q)
    (h : (Transform.build start x).run m = .ok a n) : Module.Extends B m n ∧ Q a := by
  rw [run_build] at h
  cases hrun : x.run (start m) with
  | ok a' b =>
    rw [hrun] at h
    cases h
    obtain ⟨hb, hQ⟩ := hx _ b _ hstart hrun
    exact ⟨hb.extends_ir, hQ⟩
  | error e b =>
    rw [hrun] at h
    cases h

end ContractIR
