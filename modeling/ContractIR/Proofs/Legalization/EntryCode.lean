import ContractIR.Proofs.Builder.Writing
import ContractIR.Proofs.Legalization.Routines
import ContractIR.Proofs.Semantics.Invocation

/-!
# What the entry function does

Each part of the entry function writes code, and running that code has an effect on the values and
on the globals.  The effects compose like the parts.
-/

set_option autoImplicit false

namespace ContractIR.EraVM

variable {P : Pointers} {slots : Slots} {x : BlockId} {b c d : Builder} {s t u : State P}

/-! ## Steps -/

/-- A builder has gone on, and a state with it: old values are what they were. -/
structure Reaches (b : Builder) (s : State P) (c : Builder) (t : State P) : Prop where
  size_values : b.ir.values.size ≤ c.ir.values.size
  values : ∀ v : ValueId, v.index < b.ir.values.size → t.values v = s.values v

/-- One way after another. -/
theorem Reaches.trans (h : Reaches b s c t) (k : Reaches c t d u) : Reaches b s d u where
  size_values := Nat.le_trans h.size_values k.size_values
  values v hv := by
    rw [k.values v (Nat.lt_of_lt_of_le hv h.size_values), h.values v hv]

/-- A value that the builder made is known to be something. -/
structure Holds (b : Builder) (s : State P) (v : ValueId) (y : Scalar P) : Prop where
  index_lt : v.index < b.ir.values.size
  value : s.values v = some y

/-- What is known stays known. -/
theorem Reaches.holds (h : Reaches b s c t) {v : ValueId} {y : Scalar P} (hv : Holds b s v y) :
    Holds c t v y :=
  ⟨Nat.lt_of_lt_of_le hv.index_lt h.size_values, by rw [h.values v hv.index_lt, hv.value]⟩

section Steps

variable {α β : Type}

/-- A step writes code that takes one state to another. -/
def Runs (slots : Slots) (x : BlockId) (y : Build α) (b : Builder) (s : State P)
    (Q : α → Builder → State P → Prop) : Prop :=
  Inserts x y b fun a c code =>
    ∃ t, execAll slots c.ir code s = some t ∧ Reaches b s c t ∧ Q a c t

/-- A step writes code that takes one state to another, and then an operation that passes control
on. -/
def Leaves (slots : Slots) (x : BlockId) (y : Build α) (b : Builder) (s : State P)
    (R : OpId → Builder → State P → Prop) : Prop :=
  Inserts x y b fun _ c code => ∃ init last t, code = init ++ [last] ∧
    execAll slots c.ir init s = some t ∧ R last c t

variable {y : Build α} {f : α → Build β} {Q : α → Builder → State P → Prop}

/-- Code does the same while more is written. -/
theorem execAll_of_wrote {code more : List OpId} (h : b.Wrote x c code) (k : c.Wrote x d more)
    (s : State P) : execAll slots d.ir code s = execAll slots c.ir code s := by
  refine execAll_congr (fun o ho => .of_eq (h.op_eq k ho)) (fun o ho v hv => ?_) s
  rw [Module.typeOf, k.extends_ir.values v (h.results_lt o ho v hv)]
  rfl

/-- Doing nothing has no effect. -/
theorem Runs.pure {a : α} (ha : Q a b s) : Runs slots x (pure a : Build α) b s Q :=
  Inserts.pure ⟨s, rfl, ⟨Nat.le_refl _, fun _ _ => rfl⟩, ha⟩

/-- One step after another. -/
theorem Runs.bind {R : β → Builder → State P → Prop} (hy : Runs slots x y b s Q)
    (hf : ∀ a c t, Reaches b s c t → Q a c t → Runs slots x (f a) c t R) :
    Runs slots x (y >>= f) b s R := by
  refine Inserts.bind hy fun a c code hcode hrun => ?_
  obtain ⟨t, ht, hreach, ha⟩ := hrun
  refine (hf a c t hreach ha).weaken fun a' d more hmore hrest => ?_
  obtain ⟨u, hu, hreach', ha'⟩ := hrest
  refine ⟨u, ?_, hreach.trans hreach', ha'⟩
  rw [execAll_append, execAll_of_wrote hcode hmore, ht]
  exact hu

/-- A step, and then one that passes control on. -/
theorem Runs.bind_leaves {R : OpId → Builder → State P → Prop} (hy : Runs slots x y b s Q)
    (hf : ∀ a c t, Reaches b s c t → Q a c t → Leaves slots x (f a) c t R) :
    Leaves slots x (y >>= f) b s R := by
  refine Inserts.bind hy fun a c code hcode hrun => ?_
  obtain ⟨t, ht, hreach, ha⟩ := hrun
  refine (hf a c t hreach ha).weaken fun a' d more hmore hrest => ?_
  obtain ⟨init, last, u, rfl, hu, hlast⟩ := hrest
  refine ⟨code ++ init, last, u, by simp, ?_, hlast⟩
  rw [execAll_append, execAll_of_wrote hcode hmore, ht]
  exact hu

/-- A step of which less needs to be known. -/
theorem Runs.weaken {R : α → Builder → State P → Prop} (hy : Runs slots x y b s Q)
    (hQ : ∀ a c t, Q a c t → R a c t) : Runs slots x y b s R := by
  refine Inserts.weaken hy fun a c code _ hrun => ?_
  obtain ⟨t, ht, hreach, ha⟩ := hrun
  exact ⟨t, ht, hreach, hQ a c t ha⟩

/-- A step that passes control on and of which less needs to be known. -/
theorem Leaves.weaken {R S : OpId → Builder → State P → Prop} {y : Build α}
    (hy : Leaves slots x y b s R) (hR : ∀ last c t, R last c t → S last c t) :
    Leaves slots x y b s S := by
  refine Inserts.weaken hy fun a c code _ hrun => ?_
  obtain ⟨init, last, t, hcode, ht, hlast⟩ := hrun
  exact ⟨init, last, t, hcode, ht, hR last c t hlast⟩

/-- A step behind steps that only look. -/
theorem Runs.read_bind {R : β → Builder → State P → Prop}
    (hy : ∀ a c, y.run b = .ok a c → c = b)
    (hf : ∀ a, y.run b = .ok a b → Runs slots x (f a) b s R) : Runs slots x (y >>= f) b s R :=
  Inserts.read_bind hy hf

/-- A step behind a check. -/
theorem Runs.ite {p : Prop} [Decidable p] {e : IrError} (hy : p → Runs slots x y b s Q) :
    Runs slots x (if p then y else throw e) b s Q :=
  Inserts.ite hy

end Steps

/-! ## Operations -/

section Operations

open ContractIR.Module (OpSpec)

/-- An operation is made as specified, with one result of a type. -/
structure Yields (m : Module) (id : OpId) (spec : OpSpec) (v : ValueId) (ty : Ty) : Prop where
  kind : (m.op id).kind = spec.kind
  operands : (m.op id).operands = spec.operands
  attrs : (m.op id).attrs = spec.attrs
  results : (m.op id).results = [v]
  type : m.typeOf v = ty

/-- An operation with one result is made as specified, and its result is the next value. -/
theorem inserts_yields (spec : OpSpec) {ty : Ty} (hresults : spec.results = [ty])
    (hoperands : ∀ v ∈ spec.operands, v.index < b.ir.values.size) :
    Inserts x (Build.value spec) b fun v c code => v = ⟨b.ir.values.size⟩ ∧
      c.ir.values.size = b.ir.values.size + 1 ∧ ∃ id, code = [id] ∧ Yields c.ir id spec v ty := by
  refine (inserts_value spec hresults hoperands).weaken fun v c code _ hmade => ?_
  obtain ⟨id, rfl, hmade, rfl, hone⟩ := hmade
  have hvalue := hmade.value 0 ty (by rw [hresults]; rfl)
  refine ⟨rfl, by rw [hmade.size_values, hresults]; rfl, id, rfl, by rw [hmade.op]; rfl,
    by rw [hmade.op]; rfl, by rw [hmade.op]; rfl, hone, ?_⟩
  rw [Module.typeOf, ← Nat.add_zero b.ir.values.size, hvalue]

/-- An operation with one result gives it a value. -/
theorem runs_value (spec : OpSpec) {ty : Ty} (hresults : spec.results = [ty])
    (hoperands : ∀ v ∈ spec.operands, v.index < b.ir.values.size) {y : Scalar P}
    (hexec : ∀ m id v, Yields m id spec v ty → exec slots m id s = some (s.set v y)) :
    Runs slots x (Build.value spec) b s fun v c t => Holds c t v y ∧ t.memory = s.memory := by
  refine (inserts_yields spec hresults hoperands).weaken fun v c code _ hmade => ?_
  obtain ⟨rfl, hsize, id, rfl, hyields⟩ := hmade
  refine ⟨s.set ⟨b.ir.values.size⟩ y, ?_, ⟨by omega, fun v hv => ?_⟩, ⟨by simp [hsize], by simp⟩,
    rfl⟩
  · rw [execAll, hexec c.ir id _ hyields]
    rfl
  · refine s.values_set_of_ne y fun hv' => ?_
    rw [hv'] at hv
    exact Nat.lt_irrefl _ hv

/-- A word. -/
theorem runs_wordConstant (n : Nat) :
    Runs slots x (wordConstant n) b s fun v c t =>
      Holds c t v (.word (.ofInt wordBits n)) ∧ t.memory = s.memory := by
  refine runs_value _ rfl (by simp) fun m id v hid => ?_
  simp only [exec, hid.kind, hid.operands, hid.attrs, hid.results]
  rfl

/-- The address of a global. -/
theorem runs_addressOf {g : Global} (hg : (slots g.name 0).isSome = true) :
    Runs slots x (addressOf g) b s fun v c t =>
      Holds c t v (.slot g.name 0) ∧ t.memory = s.memory := by
  refine runs_value _ rfl (by simp) fun m id v hid => ?_
  have hname : ((AttrDict.ofList [(AttrName.globalName, Attr.symbol g.name)]).get?
      AttrName.globalName).bind Attr.symbol? = some g.name := rfl
  simp only [exec, hid.kind, hid.operands, hid.attrs, hid.results, hname, Option.bind_eq_bind,
    Option.bind_some, hg, ↓reduceIte]

/-- Writing a slot. -/
theorem runs_store {v p : ValueId} {y : Scalar P} {name : String} {index : Nat}
    (hv : Holds b s v y) (hp : Holds b s p (.slot name index))
    (hslot : slots name index = some y.ty) :
    Runs slots x (Build.Llvm.store v p) b s fun _ _ t => t.memory = s.memory.set name index y := by
  refine .read_bind (run_typeOf_eq p) fun a _ => .ite fun _ => ?_
  refine (inserts_op _ (by simp [hv.index_lt, hp.index_lt])).weaken fun id c code hcode hmade => ?_
  obtain ⟨rfl, hmade⟩ := hmade
  refine ⟨s.write name index y, ?_, ⟨hcode.extends_ir.size_values, fun _ _ => rfl⟩, rfl⟩
  simp only [execAll, exec, hmade.op, OpSpec.toOp, hv.value, hp.value, Option.bind_some,
    Option.bind_eq_bind, Scalar.slot?, hslot, ↓reduceIte, List.length_nil, List.range_zero,
    List.map_nil]

/-- Reading a slot that holds a word. -/
theorem runs_load {p : ValueId} {w : Word} {name : String} {index : Nat}
    (hp : Holds b s p (.slot name index)) (hw : s.memory name index = .word w)
    (hslot : slots name index = some w.ty) :
    Runs slots x (Build.Llvm.load p w.ty) b s fun v c t =>
      Holds c t v (.word w) ∧ t.memory = s.memory := by
  refine .read_bind (run_typeOf_eq p) fun a _ => .ite fun _ => ?_
  refine runs_value _ rfl (by simp [hp.index_lt]) fun m id v hid => ?_
  have htypes : slots name index = some (Scalar.ty (.word w : Scalar P)) ∧
      m.typeOf v = Scalar.ty (.word w : Scalar P) := ⟨hslot, hid.type⟩
  simp only [exec, hid.kind, hid.operands, hid.results, hp.value, Option.bind_some,
    Option.bind_eq_bind, Scalar.slot?, hw, htypes, and_self, ↓reduceIte]

/-- The words that some values are. -/
theorem mapM_words {vs : List ValueId} {words : List Word}
    (h : List.Forall₂ (fun v w => Holds b s v (.word w)) vs words) :
    (vs.mapM fun v => (s.values v).bind Scalar.word?) = some words := by
  induction h with
  | nil => rfl
  | cons hv _ ih =>
    rw [List.mapM_cons, ih, hv.value]
    rfl

/-- Address arithmetic. -/
theorem runs_gep {p : ValueId} {y z : Scalar P} {indices : List ValueId} {words : List Word}
    {elem : Ty} (hp : Holds b s p y)
    (hindices : List.Forall₂ (fun v w => Holds b s v (.word w)) indices words)
    (hoffset : y.offset elem words = some z) :
    Runs slots x (Build.Llvm.gep p indices elem) b s fun v c t =>
      Holds c t v z ∧ t.memory = s.memory := by
  refine .read_bind (run_typeOf_eq p) fun a _ => .ite fun _ => ?_
  have hoperands : ∀ v ∈ p :: indices, v.index < b.ir.values.size :=
    List.forall_mem_cons.2 ⟨hp.index_lt, fun v hv =>
      (Outcome.exists_right hindices hv).elim fun _ hw => hw.2.index_lt⟩
  refine runs_value _ rfl hoperands fun m id v hid => ?_
  have helem : ((AttrDict.ofList [(AttrName.elemType, Attr.type elem)]).get?
      AttrName.elemType).bind Attr.type? = some elem := rfl
  simp only [exec, hid.kind, hid.operands, hid.attrs, hid.results, hp.value, mapM_words hindices,
    helem, hoffset, Option.bind_some, Option.bind_eq_bind]

/-- Reading a pointer as a word. -/
theorem runs_ptrToInt {p : ValueId} {q : P.Ptr} (hp : Holds b s p (.pointer q)) :
    Runs slots x (Build.Llvm.ptrToInt p Ty.word) b s fun v c t =>
      Holds c t v (.word ⟨wordBits, P.toWord q⟩) ∧ t.memory = s.memory := by
  refine .read_bind (run_typeOf_eq p) fun a _ => .ite fun _ => ?_
  refine runs_value _ rfl (by simp [hp.index_lt]) fun m id v hid => ?_
  simp only [exec, hid.kind, hid.operands, hid.results, hid.type, hp.value, Option.bind_some,
    Option.bind_eq_bind, Scalar.pointer?, ↓reduceIte]

/-- An operation on two words. -/
theorem runs_binary {op : LlvmOp} (hop : op = .and ∨ op = .lshr) {v w : ValueId} {a e r : Word}
    (hv : Holds b s v (.word a)) (hw : Holds b s w (.word e)) (hr : a.combine op e = some r) :
    Runs slots x (Build.Llvm.binary op v w) b s fun v c t =>
      Holds c t v (.word r) ∧ t.memory = s.memory := by
  refine .ite fun _ => .read_bind (run_sameInteger_eq _ v w) fun ty _ => ?_
  refine runs_value _ rfl (by simp [hv.index_lt, hw.index_lt]) fun m id v hid => ?_
  rcases hop with rfl | rfl <;>
    simp only [exec, hid.kind, hid.operands, hid.results, hv.value, hw.value, hr,
      Option.bind_some, Option.bind_eq_bind, Scalar.word?]

/-- A comparison of two words. -/
theorem runs_icmp {p : Predicate} {v w : ValueId} {a e r : Word}
    (hv : Holds b s v (.word a)) (hw : Holds b s w (.word e)) (hr : a.compare p e = some r) :
    Runs slots x (Build.Llvm.icmp p v w) b s fun v c t =>
      Holds c t v (.word r) ∧ t.memory = s.memory := by
  refine .read_bind (run_sameInteger_eq _ v w) fun ty _ => ?_
  refine runs_value _ rfl (by simp [hv.index_lt, hw.index_lt]) fun m id v hid => ?_
  have hp : (((AttrDict.ofList [(AttrName.predicate, p.toAttr)]).get? AttrName.predicate).bind
      Attr.str?).bind Predicate.ofName? = some p := Predicate.ofName?_name p
  simp only [exec, hid.kind, hid.operands, hid.attrs, hid.results, hv.value, hw.value, hr, hp,
    Option.bind_some, Option.bind_eq_bind, Scalar.word?]

/-- A conditional branch.

**Proof sketch.** The operation is written with its operand and gets its successors then, which
changes neither what it owns nor where it stands; the state is not changed by it. -/
theorem leaves_condBr {v : ValueId} {y : Scalar P} (hv : Holds b s v y) (yes no : BlockId) :
    Leaves slots x (Build.Llvm.condBr v yes no) b s fun last c t => t = s ∧
      (c.ir.op last).kind = .llvm .condBr ∧ (c.ir.op last).operands = [v] ∧
      (c.ir.op last).successors = [yes, no] := by
  refine Inserts.read_bind (run_typeOf_eq v) fun ty _ => Inserts.ite fun _ => ?_
  intro before behind hb a d h
  obtain ⟨id, c, hop, h⟩ := Outcome.run_bind_eq_ok.1 h
  obtain ⟨code, hcode, hc, rfl, hmade⟩ :=
    inserts_op _ (by simp [hv.index_lt]) before behind hb id c hop
  cases h
  have hid := (hcode.new a).1 (List.mem_singleton_self a)
  have hself : (c.ir.setSuccessors a [yes, no]).op a =
      { c.ir.op a with successors := [yes, no] } :=
    Module.op_modifyOp_self _ _ hid.2
  refine ⟨[a], ⟨?_, hcode.size_blocks, fun o => ?_, hcode.members, fun o ho w hw => ?_,
    hcode.location, fun hlinked => ?_⟩, ⟨hc.block_lt, hc.ops, hc.point⟩, [], a, s, rfl, rfl, rfl,
    ?_⟩
  · exact hcode.extends_ir.modifyOp hid.1 (fun _ => rfl) (fun _ => rfl) fun _ => rfl
  · rw [hcode.new]
    simp [Module.setSuccessors]
  · obtain rfl := List.mem_singleton.1 ho
    rw [hself] at hw
    exact hcode.results_lt _ (List.mem_singleton_self _) w hw
  · exact (hcode.linked hlinked).modifyOp a (fun _ => rfl) (fun _ => rfl) (fun _ => rfl)
      ((hcode.linked hlinked).operands_lt a)
  · rw [hself, hmade.op]
    exact ⟨rfl, rfl, rfl⟩

end Operations

/-! ## Globals -/

section Globals

/-- Storing a value in a global. -/
theorem runs_storeGlobal {v : ValueId} {g : Global} {y : Scalar P} (hv : Holds b s v y)
    (hslot : slots g.name 0 = some y.ty) :
    Runs slots x (storeGlobal v g) b s fun _ _ t => t.memory = s.memory.set g.name 0 y := by
  have hsome : (slots g.name 0).isSome = true := by
    rw [hslot]
    rfl
  refine (runs_addressOf hsome).bind fun address c t hreach haddress => ?_
  obtain ⟨haddress, hmemory⟩ := haddress
  refine (runs_store (hreach.holds hv) haddress hslot).bind fun _ d u _ hstore => ?_
  exact .pure (by rw [hstore, hmemory])

/-- Storing a value in some globals. -/
theorem runs_storeGlobals {v : ValueId} {y : Scalar P} (hv : Holds b s v y) {gs : List Global}
    (hslots : ∀ g ∈ gs, slots g.name 0 = some y.ty) :
    Runs slots x (storeGlobals v gs) b s fun _ _ t => t.memory = s.memory.setAll y gs := by
  induction gs generalizing b s with
  | nil => exact .pure rfl
  | cons g gs ih =>
    rw [List.forall_mem_cons] at hslots
    refine (runs_storeGlobal hv hslots.1).bind fun _ c t hreach hstore => ?_
    refine (ih (hreach.holds hv) hslots.2).weaken fun _ d u hrest => ?_
    rw [hrest, hstore, Memory.setAll]

/-- A small number as a word. -/
theorem toNat_ofInt {n : Nat} (h : n < 2 ^ wordBits) : (Word.ofInt wordBits n).bits.toNat = n := by
  calc (Word.ofInt wordBits n).bits.toNat = (BitVec.ofInt wordBits n).toNat := rfl
    _ = (BitVec.ofNat wordBits n).toNat := by rw [BitVec.ofInt_natCast]
    _ = n := by rw [BitVec.toNat_ofNat, Nat.mod_eq_of_lt h]

/-- The address of a slot of the extra words. -/
theorem runs_extraSlot {base : ValueId} {name : String} (hbase : Holds b s base (.slot name 0))
    {slot : Nat} (hslot : slot < 2 ^ wordBits) :
    Runs slots x (extraSlot base slot) b s fun v c t =>
      Holds c t v (.slot name slot) ∧ t.memory = s.memory := by
  refine (runs_wordConstant 0).bind fun first c t h₁ hfirst => ?_
  refine (runs_wordConstant slot).bind fun index d u h₂ hindex => ?_
  refine (runs_gep (h₂.holds (h₁.holds hbase)) (.cons (h₂.holds hfirst.1) (.cons hindex.1 .nil))
    ?_).weaken fun v e w hv => ⟨hv.1, by rw [hv.2, hindex.2, hfirst.2]⟩
  have hzero : (Word.ofInt wordBits (0 : Nat)).bits.toNat = 0 := rfl
  simp only [Scalar.offset, Global.ty, hzero, Nat.zero_mul, toNat_ofInt hslot, Nat.zero_add]

/-- Storing values in the slots of the extra words, from a slot on.

**Proof sketch.** Induction on the values: the address of the slot is computed, the value stored
there, and what the rest reads still holds, as code only adds values. -/
theorem runs_storeExtra {base : ValueId} {name : String} (hbase : Holds b s base (.slot name 0))
    {slot : Nat} {vs : List ValueId} {ys : List (Scalar P)} (hvs : List.Forall₂ (Holds b s) vs ys)
    (hys : ∀ y ∈ ys, y.ty = Ty.word)
    (hslots : ∀ i < slot + ys.length, slots name i = some Ty.word)
    (hlt : slot + ys.length ≤ 2 ^ wordBits) :
    Runs slots x (storeExtra base slot vs) b s fun _ _ t =>
      t.memory = s.memory.setFrom name slot ys := by
  induction vs generalizing b s slot ys with
  | nil =>
    cases hvs
    exact .pure rfl
  | cons v vs ih =>
    obtain ⟨y, rest, hv, hrest, rfl⟩ := List.forall₂_cons_left_iff.1 hvs
    rw [List.length_cons] at hlt hslots
    rw [List.forall_mem_cons] at hys
    refine (runs_extraSlot hbase (by omega)).bind fun address c t h₁ haddress => ?_
    refine (runs_store (h₁.holds hv) haddress.1 ?_).bind fun _ d u h₂ hstore => ?_
    · rw [hys.1]
      exact hslots slot (by omega)
    have hreach := h₁.trans h₂
    refine (ih (hreach.holds hbase) (hrest.imp fun _ _ => hreach.holds) hys.2
      (fun i hi => hslots i (by omega)) (by omega)).weaken fun _ e w hmemory => ?_
    rw [hmemory, hstore, haddress.2, Memory.setFrom]

/-- The length of the call data, computed from the pointer. -/
theorem toNat_length (p : P.Ptr) :
    (P.toWord p >>> lengthShift &&& BitVec.ofInt wordBits lengthMask).toNat = P.length p := by
  have hmask : (BitVec.ofInt wordBits lengthMask).toNat = 2 ^ 32 - 1 := rfl
  rw [BitVec.toNat_and, BitVec.toNat_ushiftRight, hmask, Nat.and_two_pow_sub_one_eq_mod,
    Nat.shiftRight_eq_div_pow]
  rfl

/-- The globals once everything about the call data is set. -/
def Memory.setCalldata (memory : Memory P) (p : P.Ptr) : Memory P :=
  ((memory.set Global.calldataPtr.name 0 (.pointer p)).set Global.calldataSize.name 0
    (.word ⟨wordBits, .ofNat wordBits (P.length p)⟩)).setAll (.pointer (P.advance p (P.length p)))
    [.returnDataPtr, .activePtr]

/-- A global other than that for the extra data is one slot. -/
theorem slot_zero (hslots : ∀ (g : Global) i, slots g.name i = slotTy? g.ty i) {g : Global}
    (hg : g ≠ .extraAbiData) : slots g.name 0 = some g.ty := by
  rw [hslots]
  cases g <;> trivial

/-- Setting everything that is kept about the call data.

**Proof sketch.** The code step by step (`Runs.bind`), each step with its own lemma: the pointer
is stored, its number shifted and masked for the length, the length stored and read again, and the
address behind the data stored twice.  What the first steps left is still known in the later ones
(`holds`). -/
theorem runs_storeCalldata (hslots : ∀ (g : Global) i, slots g.name i = slotTy? g.ty i)
    {calldata : ValueId} {p : P.Ptr} (hc : Holds b s calldata (.pointer p)) :
    Runs slots x (storeCalldata calldata) b s fun _ _ t => t.memory = s.memory.setCalldata p := by
  have hslot (g : Global) (hg : g ≠ .extraAbiData) := slot_zero hslots hg
  refine (runs_storeGlobal hc (hslot .calldataPtr (by decide))).bind fun _ c₁ t₁ h₁ hm₁ => ?_
  refine (runs_ptrToInt (h₁.holds hc)).bind fun number c₂ t₂ h₂ hnumber => ?_
  refine (runs_wordConstant lengthShift).bind fun shift c₃ t₃ h₃ hshift => ?_
  have hshifted : Word.combine .lshr ⟨wordBits, P.toWord p⟩ (.ofInt wordBits lengthShift) =
      some ⟨wordBits, P.toWord p >>> lengthShift⟩ := rfl
  refine (runs_binary (.inr rfl) (h₃.holds hnumber.1) hshift.1 hshifted).bind
    fun shifted c₄ t₄ h₄ hshifted => ?_
  refine (runs_wordConstant lengthMask).bind fun mask c₅ t₅ h₅ hmask => ?_
  have hlength : Word.combine .and ⟨wordBits, P.toWord p >>> lengthShift⟩
      (.ofInt wordBits lengthMask) = some ⟨wordBits, .ofNat wordBits (P.length p)⟩ := by
    rw [← toNat_length, BitVec.ofNat_toNat]
    rfl
  refine (runs_binary (.inl rfl) (h₅.holds hshifted.1) hmask.1 hlength).bind
    fun length c₆ t₆ h₆ hlength => ?_
  refine (runs_addressOf (g := .calldataSize) (by rw [hslot _ (by decide)]; rfl)).bind
    fun address c₇ t₇ h₇ haddress => ?_
  refine (runs_store (h₇.holds hlength.1) haddress.1 (hslot .calldataSize (by decide))).bind
    fun _ c₈ t₈ h₈ hm₈ => ?_
  refine (runs_load (h₈.holds haddress.1) (w := ⟨wordBits, .ofNat wordBits (P.length p)⟩)
    (by rw [hm₈, Memory.set_same]) (hslot .calldataSize (by decide))).bind
    fun size c₉ t₉ h₉ hsize => ?_
  have hbase := h₉.holds (h₈.holds (h₇.holds (h₆.holds (h₅.holds (h₄.holds (h₃.holds
    (h₂.holds (h₁.holds hc))))))))
  have hsmall : P.length p < 2 ^ wordBits :=
    Nat.lt_of_lt_of_le (Nat.mod_lt _ (by decide)) (by decide)
  have hbehind : Scalar.offset (.int 8) (.pointer p) [⟨wordBits, .ofNat wordBits (P.length p)⟩] =
      some (.pointer (P.advance p (P.length p))) := by
    simp [Scalar.offset, Ty.width?, Nat.mod_eq_of_lt hsmall]
  refine (runs_gep hbase (.cons hsize.1 .nil) hbehind).bind fun behind c t h hbehind => ?_
  refine (runs_storeGlobals hbehind.1 fun g hg => ?_).weaken fun _ _ u hu => ?_
  · rcases List.mem_pair.1 hg with rfl | rfl
    · exact hslot .returnDataPtr (by decide)
    · exact hslot .activePtr (by decide)
  · rw [hu, hbehind.2, hsize.2, hm₈, haddress.2, hlength.2, hmask.2, hshifted.2, hshift.2,
      hnumber.2, hm₁, Memory.setCalldata]

end Globals

/-! ## The entry function -/

section Entry

variable {p : P.Ptr} {flags : BitVec wordBits} {extra : Fin extraWords → BitVec wordBits}

/-- The arguments of an invocation: the pointer to the call data, the call flags and the extra
words. -/
def invocation (p : P.Ptr) (flags : BitVec wordBits) (extra : Fin extraWords → BitVec wordBits) :
    List (Scalar P) :=
  .pointer p :: .word ⟨wordBits, flags⟩ :: List.ofFn fun i => .word ⟨wordBits, extra i⟩

/-- What the globals hold once an invocation is set up. -/
structure Memory.Ready (memory : Memory P) (p : P.Ptr) (flags : BitVec wordBits)
    (extra : Fin extraWords → BitVec wordBits) : Prop where
  memoryPointer : memory Global.memoryPointer.name 0 = .word ⟨wordBits, 0⟩
  returnDataSize : memory Global.returnDataSize.name 0 = .word ⟨wordBits, 0⟩
  calldataSize : memory Global.calldataSize.name 0 =
    .word ⟨wordBits, .ofNat wordBits (P.length p)⟩
  calldataPtr : memory Global.calldataPtr.name 0 = .pointer p
  returnDataPtr : memory Global.returnDataPtr.name 0 = .pointer (P.advance p (P.length p))
  activePtr : memory Global.activePtr.name 0 = .pointer (P.advance p (P.length p))
  callFlags : memory Global.callFlags.name 0 = .word ⟨wordBits, flags⟩
  extraAbiData : ∀ i : Fin extraWords,
    memory Global.extraAbiData.name i = .word ⟨wordBits, extra i⟩

/-- What the entry function writes: zeros first, then what it is given. -/
def Memory.setUp (memory : Memory P) (p : P.Ptr) (flags : BitVec wordBits)
    (extra : Fin extraWords → BitVec wordBits) : Memory P :=
  (((((memory.setAll (.word ⟨wordBits, 0⟩) Global.words).setFrom Global.extraAbiData.name 0
    (List.replicate extraWords (.word ⟨wordBits, 0⟩))).setCalldata p).set Global.callFlags.name 0
    (.word ⟨wordBits, flags⟩)).setFrom Global.extraAbiData.name 0
    (List.ofFn fun i => .word ⟨wordBits, extra i⟩))

/-- What is overwritten, and what stays. -/
theorem Memory.ready_setUp (memory : Memory P) :
    (memory.setUp p flags extra).Ready p flags extra := by
  constructor
  case extraAbiData =>
    intro i
    have hi : (List.ofFn fun i => (.word ⟨wordBits, extra i⟩ : Scalar P))[i.val]? =
        some (.word ⟨wordBits, extra i⟩) := by simp
    rw [Memory.setUp, ← Nat.zero_add i.val]
    exact setFrom_add _ _ _ hi
  all_goals
    simp [Memory.setUp, Memory.setCalldata, Memory.setAll, Global.words, Global.name]

/-- The lowest bit of a word, compared with one. -/
theorem and_one_beq (flags : BitVec wordBits) :
    ((flags &&& BitVec.ofInt wordBits (1 : Nat)) == BitVec.ofInt wordBits (1 : Nat)) =
      flags.getLsbD 0 := by
  have hone : BitVec.ofInt wordBits (1 : Nat) = BitVec.ofNat wordBits 1 := rfl
  rw [hone, BitVec.and_one_eq_setWidth_ofBool_getLsbD]
  cases flags.getLsbD 0 <;> rfl

/-- The end of the code branches on the lowest bit of the call flags, and writes nothing. -/
theorem leaves_testFlags {callFlags : ValueId}
    (hflags : Holds b s callFlags (.word ⟨wordBits, flags⟩))
    (deployBlock runtimeBlock : BlockId) :
    Leaves slots x (testFlags callFlags deployBlock runtimeBlock) b s fun last c t =>
      t.memory = s.memory ∧ ∃ v, t.values v = some (.word ⟨1, .ofBool (flags.getLsbD 0)⟩) ∧
        (c.ir.op last).kind = .llvm .condBr ∧ (c.ir.op last).operands = [v] ∧
        (c.ir.op last).successors = [deployBlock, runtimeBlock] := by
  refine (runs_wordConstant 1).bind_leaves fun one c₁ t₁ h₁ hone => ?_
  have hand : Word.combine .and ⟨wordBits, flags⟩ (.ofInt wordBits (1 : Nat)) =
      some ⟨wordBits, flags &&& BitVec.ofInt wordBits (1 : Nat)⟩ := rfl
  refine (runs_binary (.inl rfl) (h₁.holds hflags) hone.1 hand).bind_leaves
    fun bit c₂ t₂ h₂ hbit => ?_
  have hcompare : Word.compare .eq ⟨wordBits, flags &&& BitVec.ofInt wordBits (1 : Nat)⟩
      (.ofInt wordBits (1 : Nat)) = some ⟨1, .ofBool (flags.getLsbD 0)⟩ := by
    rw [← and_one_beq]
    rfl
  refine (runs_icmp hbit.1 (h₂.holds hone.1) hcompare).bind_leaves fun isDeploy c t _ hdeploy => ?_
  refine (leaves_condBr hdeploy.1 deployBlock runtimeBlock).weaken fun last d u hd => ?_
  obtain ⟨rfl, hkind, hoperands, hsuccessors⟩ := hd
  refine ⟨?_, isDeploy, hdeploy.1.value, hkind, hoperands, hsuccessors⟩
  rw [hdeploy.2, hbit.2, hone.2]

/-- The code of the entry function sets the globals up and branches on the lowest bit of the call
flags.

**Proof sketch.** The code is executed step by step.  Each store runs by its own lemma, the values
that were read before go on to be held (`Reaches.holds`), and what the stores make of the memory is
what setting it up means; the branch is `leaves_testFlags`. -/
theorem leaves_entryCode (hslots : ∀ (g : Global) i, slots g.name i = slotTy? g.ty i)
    (hargs : List.Forall₂ (Holds b s) (b.ir.block x).args (invocation p flags extra))
    (deployBlock runtimeBlock : BlockId) :
    Leaves slots x (entryCode x deployBlock runtimeBlock) b s fun last c t =>
      t.memory = s.memory.setUp p flags extra ∧
      ∃ v, t.values v = some (.word ⟨1, .ofBool (flags.getLsbD 0)⟩) ∧
        (c.ir.op last).kind = .llvm .condBr ∧ (c.ir.op last).operands = [v] ∧
        (c.ir.op last).successors = [deployBlock, runtimeBlock] := by
  have hslot (g : Global) (hg : g ≠ .extraAbiData) := slot_zero hslots hg
  have hextra : ∀ i < extraWords, slots Global.extraAbiData.name i = some Ty.word := by
    intro i hi
    rw [hslots]
    exact if_pos hi
  -- the pointer to the call data, the call flags, and the extra words
  obtain ⟨calldata, vs, hdata, hvs, hx⟩ := List.forall₂_cons_right_iff.1 hargs
  obtain ⟨callFlags, extras, hflags, hextras, rfl⟩ := List.forall₂_cons_right_iff.1 hvs
  refine Inserts.read_bind (fun a c h => ?_) fun args h => ?_
  · cases h
    rfl
  obtain rfl : (b.ir.block x).args = args := by
    cases h
    rfl
  rw [hx]
  simp only [List.getD_cons_zero, List.getD_cons_succ, List.drop_succ_cons, List.drop_zero]
  refine (runs_wordConstant 0).bind_leaves fun zero c₁ t₁ h₁ hzero => ?_
  refine (runs_storeGlobals hzero.1 fun g hg => ?_).bind_leaves fun _ c₂ t₂ h₂ hm₂ => ?_
  · simp only [Global.words, List.mem_cons, List.not_mem_nil, or_false] at hg
    rcases hg with rfl | rfl | rfl | rfl <;> exact hslot _ (by decide)
  refine (runs_addressOf (g := .extraAbiData) (by rw [hextra _ (by decide)]; rfl)).bind_leaves
    fun base c₃ t₃ h₃ hbase => ?_
  have hzero₃ : Holds c₃ t₃ zero (.word ⟨wordBits, 0⟩) := h₃.holds (h₂.holds hzero.1)
  have hzeros : List.Forall₂ (Holds c₃ t₃) (List.replicate extraWords zero)
      (List.replicate extraWords (.word ⟨wordBits, 0⟩)) :=
    List.forall₂_iff_get.2 ⟨by simp, fun i _ _ => by simpa using hzero₃⟩
  refine (runs_storeExtra hbase.1 hzeros (fun y hy => ?_) (fun i hi => hextra i ?_) ?_).bind_leaves
    fun _ c₄ t₄ h₄ hm₄ => ?_
  · rw [List.eq_of_mem_replicate hy]
    rfl
  · simpa using hi
  · simp [extraWords, wordBits]
  have h₁₄ := ((h₁.trans h₂).trans h₃).trans h₄
  refine (runs_storeCalldata hslots (h₁₄.holds hdata)).bind_leaves fun _ c₅ t₅ h₅ hm₅ => ?_
  refine (runs_storeGlobal (h₅.holds (h₁₄.holds hflags)) (hslot .callFlags (by decide))).bind_leaves
    fun _ c₆ t₆ h₆ hm₆ => ?_
  have h₁₆ := (h₁₄.trans h₅).trans h₆
  refine (runs_storeExtra (h₆.holds (h₅.holds (h₄.holds hbase.1)))
    (hextras.imp fun _ _ => h₁₆.holds) (fun y hy => ?_) (fun i hi => hextra i ?_) ?_).bind_leaves
    fun _ c₇ t₇ h₇ hm₇ => ?_
  · obtain ⟨i, rfl⟩ := List.mem_ofFn.1 hy
    rfl
  · simpa using hi
  · simp [extraWords, wordBits]
  refine (leaves_testFlags (h₇.holds (h₁₆.holds hflags)) deployBlock runtimeBlock).weaken
    fun last d u hd => ⟨?_, hd.2⟩
  rw [hd.1, hm₇, hm₆, hm₅, hm₄, hbase.2, hm₂, hzero.2, Memory.setUp]
  rfl

end Entry

end ContractIR.EraVM
