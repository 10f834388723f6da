import ContractIR.Proofs.Module.Links

/-!
# Symbols of the body

While a module is legalized, the body is one block that holds nothing but symbols, and no two of
them share a name.  Looking a name up then finds the one operation that declares it.

## Main definitions

* `ContractIR.Module.Declares`, `ContractIR.Module.Declared` — the body declares a name.
* `ContractIR.Module.TopLevel` — the body holds symbols with distinct names.
* `ContractIR.Module.Joins` — a symbol is put into the body.

## Main results

* `ContractIR.Module.TopLevel.lookupTop?_eq_some_iff` — lookup finds what the body declares.
* `ContractIR.Module.Joins.topLevel` — a symbol with a new name may join.
-/

set_option autoImplicit false

namespace ContractIR

namespace Module

variable {m n : Module}

/-! ## Declared names -/

/-- An operation of the body declares a name. -/
def Declares (m : Module) (name : String) (id : OpId) : Prop :=
  id ∈ (m.block ⟨0⟩).ops ∧ m.symName? id = some name

/-- The body declares a name. -/
def Declared (m : Module) (name : String) : Prop := ∃ id, m.Declares name id

/-- The body is one block, which holds symbols with distinct names. -/
structure TopLevel (m : Module) : Prop where
  body : m.region body = ⟨[⟨0⟩], none⟩
  symbols : ∀ o ∈ (m.block ⟨0⟩).ops, (m.kind o).isSymbol = true
  named : ∀ o ∈ (m.block ⟨0⟩).ops, ∃ name, m.symName? o = some name
  distinct : ∀ o ∈ (m.block ⟨0⟩).ops, ∀ p ∈ (m.block ⟨0⟩).ops, m.symName? o = m.symName? p → o = p

namespace TopLevel

/-- The first block of the body has number zero. -/
theorem bodyBlock_eq (h : m.TopLevel) : m.bodyBlock = ⟨0⟩ := by
  rw [bodyBlock, h.body]
  rfl

/-- The operations of the body are those of its only block. -/
theorem topLevel_eq (h : m.TopLevel) : m.topLevel = (m.block ⟨0⟩).ops := by
  rw [topLevel, h.bodyBlock_eq]

/-- The symbols of the body are its operations, with their names. -/
theorem mem_symbolsIn_iff (h : m.TopLevel) {id : OpId} {name : String} :
    (id, name) ∈ m.symbolsIn Module.body ↔ m.Declares name id := by
  simp only [symbolsIn, h.body, List.flatMap_cons, List.flatMap_nil, List.append_nil,
    List.mem_filterMap]
  constructor
  · rintro ⟨o, ho, hsome⟩
    rw [if_pos (h.symbols o ho), Option.map_eq_some_iff] at hsome
    obtain ⟨x, hx, heq⟩ := hsome
    obtain ⟨rfl, rfl⟩ := Prod.mk.inj heq
    exact ⟨ho, hx⟩
  · rintro ⟨ho, hname⟩
    exact ⟨id, ho, by rw [if_pos (h.symbols id ho), hname]; rfl⟩

/-- Two operations of the body that declare one name are the same. -/
theorem eq_of_declares (h : m.TopLevel) {name : String} {o p : OpId} (ho : m.Declares name o)
    (hp : m.Declares name p) : o = p :=
  h.distinct o ho.1 p hp.1 (ho.2.trans hp.2.symm)

/-- Lookup finds the operation that declares a name. -/
theorem lookupTop?_eq_some_iff (h : m.TopLevel) {name : String} {id : OpId} :
    m.lookupTop? name = some id ↔ m.Declares name id := by
  have hsound : ∀ o, m.lookupTop? name = some o → m.Declares name o := by
    intro o ho
    obtain ⟨⟨p, x⟩, hfind, rfl⟩ := Option.map_eq_some_iff.1 ho
    obtain rfl : x = name := by simpa using List.find?_some hfind
    exact h.mem_symbolsIn_iff.1 (List.mem_of_find?_eq_some hfind)
  refine ⟨hsound id, fun hid => ?_⟩
  cases hlookup : m.lookupTop? name with
  | none =>
    have hnone := List.find?_eq_none.1 (Option.map_eq_none_iff.1 hlookup) (id, name)
      (h.mem_symbolsIn_iff.2 hid)
    simp at hnone
  | some o => rw [h.eq_of_declares (hsound o hlookup) hid]

/-- Lookup finds something if the body declares a name. -/
theorem isSome_lookupTop?_iff (h : m.TopLevel) {name : String} :
    (m.lookupTop? name).isSome = true ↔ m.Declared name := by
  rw [Option.isSome_iff_exists]
  exact exists_congr fun _ => h.lookupTop?_eq_some_iff

/-- Lookup finds nothing if the body does not declare a name. -/
theorem lookupTop?_eq_none_iff (h : m.TopLevel) {name : String} :
    m.lookupTop? name = none ↔ ¬m.Declared name := by
  rw [← h.isSome_lookupTop?_iff, Bool.not_eq_true, Option.isSome_eq_false_iff,
    Option.isNone_iff_eq_none]

/-- The body stays as it is while it lists the same operations, with the same names. -/
theorem congr (h : m.TopLevel) (hbody : n.region Module.body = m.region Module.body)
    (hops : (n.block ⟨0⟩).ops = (m.block ⟨0⟩).ops)
    (hold : ∀ o ∈ (m.block ⟨0⟩).ops, (n.kind o).isSymbol = (m.kind o).isSymbol ∧
      n.symName? o = m.symName? o) : n.TopLevel where
  body := hbody.trans h.body
  symbols o ho := by
    rw [hops] at ho
    rw [(hold o ho).1, h.symbols o ho]
  named o ho := by
    rw [hops] at ho
    rw [(hold o ho).2]
    exact h.named o ho
  distinct o ho p hp heq := by
    rw [hops] at ho hp
    rw [(hold o ho).2, (hold p hp).2] at heq
    exact h.distinct o ho p hp heq

end TopLevel

/-- The body declares the same names while it lists the same operations, with the same names. -/
theorem declares_congr (hops : (n.block ⟨0⟩).ops = (m.block ⟨0⟩).ops)
    (hold : ∀ o ∈ (m.block ⟨0⟩).ops, n.symName? o = m.symName? o) {name : String} {id : OpId} :
    n.Declares name id ↔ m.Declares name id := by
  rw [Declares, Declares, hops]
  constructor <;> rintro ⟨ho, hname⟩
  · exact ⟨ho, (hold id ho).symm.trans hname⟩
  · exact ⟨ho, (hold id ho).trans hname⟩

/-! ## New symbols -/

/-- A symbol that is no container is put into the body; what stands there stays. -/
structure Joins (m n : Module) (id : OpId) (name : String) : Prop where
  body : n.region body = m.region body
  ops : ∃ index, (n.block ⟨0⟩).ops = placeAt index id (m.block ⟨0⟩).ops
  old : ∀ o ∈ (m.block ⟨0⟩).ops, n.kind o = m.kind o ∧ n.symName? o = m.symName? o
  isSymbol : (n.kind id).isSymbol = true
  isContainer : (n.kind id).isContainer = false
  name : n.symName? id = some name

namespace Joins

variable {id : OpId} {name : String}

/-- A symbol joins when it is built in the body. -/
theorem of_extends {B : BlockId → Prop} (hext : Extends B m n) (h : m.Linked)
    (index : Option Nat) (hops : (n.block ⟨0⟩).ops = placeAt index id (m.block ⟨0⟩).ops)
    (hsymbol : (n.kind id).isSymbol = true) (hcontainer : (n.kind id).isContainer = false)
    (hname : n.symName? id = some name) : Joins m n id name where
  body := hext.regions _ h.body_lt
  ops := ⟨index, hops⟩
  old o ho := by
    have hop := hext.ops o (h.ops_lt ho)
    exact ⟨by rw [kind, hop]; rfl, by rw [symName?, attr?, hop]; rfl⟩
  isSymbol := hsymbol
  isContainer := hcontainer
  name := hname

/-- The operations of the body afterwards. -/
theorem mem_ops_iff (h : Joins m n id name) {o : OpId} :
    o ∈ (n.block ⟨0⟩).ops ↔ o = id ∨ o ∈ (m.block ⟨0⟩).ops := by
  obtain ⟨index, hops⟩ := h.ops
  rw [hops, mem_placeAt]

/-- The names that are declared afterwards. -/
theorem declares_iff (h : Joins m n id name) {x : String} {j : OpId} :
    n.Declares x j ↔ m.Declares x j ∨ j = id ∧ x = name := by
  rw [Declares, h.mem_ops_iff]
  constructor
  · rintro ⟨rfl | hj, hx⟩
    · exact .inr ⟨rfl, Option.some.inj (hx.symm.trans h.name)⟩
    · exact .inl ⟨hj, (h.old j hj).2.symm.trans hx⟩
  · rintro (⟨hj, hx⟩ | ⟨rfl, rfl⟩)
    · exact ⟨.inr hj, (h.old j hj).2.trans hx⟩
    · exact ⟨.inl rfl, h.name⟩

/-- The declared names afterwards. -/
theorem declared_iff (h : Joins m n id name) {x : String} :
    n.Declared x ↔ m.Declared x ∨ x = name := by
  constructor
  · rintro ⟨j, hj⟩
    rcases h.declares_iff.1 hj with hj | ⟨-, hx⟩
    · exact .inl ⟨j, hj⟩
    · exact .inr hx
  · rintro (⟨j, hj⟩ | hx)
    · exact ⟨j, h.declares_iff.2 (.inl hj)⟩
    · exact ⟨id, h.declares_iff.2 (.inr ⟨rfl, hx⟩)⟩

/-- A symbol with a new name may join.

**Proof sketch.** The body has the operations that it had and the new one.  The new one is a
symbol with a name, and no old one has that name, as it was not declared. -/
theorem topLevel (h : Joins m n id name) (hm : m.TopLevel) (hfree : ¬m.Declared name) :
    n.TopLevel where
  body := h.body.trans hm.body
  symbols o ho := by
    rcases h.mem_ops_iff.1 ho with rfl | ho
    · exact h.isSymbol
    · rw [(h.old o ho).1, hm.symbols o ho]
  named o ho := by
    rcases h.mem_ops_iff.1 ho with rfl | ho
    · exact ⟨name, h.name⟩
    · rw [(h.old o ho).2]
      exact hm.named o ho
  distinct := by
    have hnew : ∀ o ∈ (m.block ⟨0⟩).ops, n.symName? o ≠ some name := by
      intro o ho heq
      exact hfree ⟨o, ho, (h.old o ho).2.symm.trans heq⟩
    intro o ho p hp heq
    rcases h.mem_ops_iff.1 ho with rfl | ho <;> rcases h.mem_ops_iff.1 hp with rfl | hp
    · rfl
    · exact absurd (heq.symm.trans h.name) (hnew p hp)
    · exact absurd (heq.trans h.name) (hnew o ho)
    · rw [(h.old o ho).2, (h.old p hp).2] at heq
      exact hm.distinct o ho p hp heq

/-- The containers of the body stay. -/
theorem filter_isContainer (h : Joins m n id name) :
    ((n.block ⟨0⟩).ops.filter fun o => (n.kind o).isContainer) =
      (m.block ⟨0⟩).ops.filter fun o => (m.kind o).isContainer := by
  obtain ⟨index, hops⟩ := h.ops
  have hold : ∀ l, l ⊆ (m.block ⟨0⟩).ops → (l.filter fun o => (n.kind o).isContainer) =
      l.filter fun o => (m.kind o).isContainer := fun l hl =>
    List.filter_congr fun o ho => by rw [(h.old o (hl ho)).1]
  rw [hops, ← hold _ (List.Subset.refl _)]
  cases index with
  | none => simp [placeAt, h.isContainer]
  | some i =>
    rw [placeAt, List.filter_append, List.filter_cons_of_neg (by simp [h.isContainer]),
      ← List.filter_append, List.take_append_drop]

end Joins

/-! ## Dropped symbols -/

/-- Taking an operation out of its block leaves names. -/
theorem symName?_detachOp (id o : OpId) : (m.detachOp id).symName? o = m.symName? o := by
  simp only [symName?, attr?, op_detachOp]
  split <;> rfl

/-- An operation that is taken out of the body declares nothing any more. -/
theorem declares_detachOp_iff {id : OpId} (hid : (m.op id).parent = some ⟨0⟩)
    (hlt : 0 < m.blocks.size) {x : String} {j : OpId} :
    (m.detachOp id).Declares x j ↔ m.Declares x j ∧ j ≠ id := by
  rw [Declares, Declares, symName?_detachOp, block_detachOp, if_pos ⟨hid, hlt⟩]
  simp only [List.mem_filter, decide_eq_true_eq]
  tauto

/-- The body without one of its operations.

**Proof sketch.** The operations that are left were in the body, with the kinds and names that
they had. -/
theorem TopLevel.detachOp (h : m.TopLevel) (id : OpId) : (m.detachOp id).TopLevel := by
  have hkind : ∀ o, (m.detachOp id).kind o = m.kind o := fun o => by
    simp only [kind, op_detachOp]
    split <;> rfl
  have hsub : ∀ o ∈ ((m.detachOp id).block ⟨0⟩).ops, o ∈ (m.block ⟨0⟩).ops := by
    intro o ho
    rw [block_detachOp] at ho
    split at ho
    · exact (List.mem_filter.1 ho).1
    · exact ho
  refine ⟨by rw [region_detachOp, h.body], fun o ho => ?_, fun o ho => ?_, fun o ho p hp heq => ?_⟩
  · rw [hkind, h.symbols o (hsub o ho)]
  · rw [symName?_detachOp]
    exact h.named o (hsub o ho)
  · rw [symName?_detachOp, symName?_detachOp] at heq
    exact h.distinct o (hsub o ho) p (hsub p hp) heq

end Module

end ContractIR
