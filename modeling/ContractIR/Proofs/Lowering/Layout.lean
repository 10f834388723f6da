import ContractIR.Proofs.Lowering.Assembly
import Mathlib.Data.List.Nodup

/-!
# The layout of lowered modules

Where the contracts and functions of a lowered module stand, and what their operations, regions,
blocks and values look like.  The body lists the contracts, the block of a contract lists its
functions, and the block of a function lists the lines of its code; nothing else is in the module
that refers to any of this.

## Main definitions

* `ContractIR.FunctionSite`, `ContractIR.ContractSite` — the numbers under which a function and a
  contract are found.
* `ContractIR.FunctionSite.In`, `ContractIR.ContractSite.In` — a module has them at these numbers.
* `ContractIR.FunctionSite.Isolated` — nothing outside of a function refers to its parts.
* `ContractIR.Layout` — a module consists of given contracts.

## Main results

* `ContractIR.layout_of_addContracts` — the module that contracts were added to consists of them.
-/

set_option autoImplicit false

namespace ContractIR

/-! ## Functions -/

/-- Where a function stands: its operation, its region and its block, the number of its first
argument, and its code, the operations of which follow that of the function. -/
structure FunctionSite where
  id : OpId
  region : RegionId
  entry : BlockId
  first : Nat
  code : FunctionCode
deriving Inhabited

namespace FunctionSite

variable (s : FunctionSite)

/-- The operations of the function's code. -/
def ops : List OpId := Module.newOps (s.id.index + 1) s.code.code

/-- The arguments of the function. -/
def args : List ValueId :=
  (List.range s.code.signature.inputs.length).map fun i => ⟨s.first + i⟩

/-- The number of the first result. -/
def next : Nat := s.first + s.code.signature.inputs.length

/-- The number behind all values of the function. -/
def bound : Nat := s.next + codeCount s.code.code

/-- Nothing outside of the function refers to its region, its block, its operations or its
values. -/
structure Isolated (m : Module) : Prop where
  regions : ∀ id : OpId, id ≠ s.id → s.region ∉ (m.op id).regions
  blocks : ∀ r : RegionId, r ≠ s.region → s.entry ∉ (m.region r).blocks
  members : ∀ b : BlockId, b ≠ s.entry → ∀ o ∈ s.ops, o ∉ (m.block b).ops
  parents : ∀ id : OpId, id ∉ s.ops → (m.op id).parent ≠ some s.entry
  results : ∀ id : OpId, id ∉ s.ops → ∀ v ∈ (m.op id).results,
    v.index < s.first ∨ s.bound ≤ v.index

/-- A module has the function in block `around`. -/
structure In (m : Module) (around : BlockId) : Prop where
  op : m.op s.id = (Module.functionSpec s.code.name s.code.signature).toOp s.code.location s.first
    s.region.index (some around)
  region : m.region s.region = ⟨[s.entry], some s.id⟩
  block : m.block s.entry = ⟨s.args, s.ops, s.region⟩
  entry_lt : s.entry.index < m.blocks.size
  args : ∀ (i : Nat) (ty : Ty), s.code.signature.inputs[i]? = some ty →
    m.value ⟨s.first + i⟩ = ⟨ty, .arg s.entry i⟩
  bound_le : s.bound ≤ m.values.size
  body : m.Carries s.entry s.next s.ops s.code.code
  isolated : s.Isolated m

variable {s}

/-- Membership among the operations of a function, by number. -/
theorem mem_ops {id : OpId} :
    id ∈ s.ops ↔ s.id.index < id.index ∧ id.index ≤ s.id.index + s.code.code.length := by
  simp only [ops, Module.newOps, List.mem_map, List.mem_range'_1]
  constructor
  · rintro ⟨i, hi, rfl⟩
    simp only
    omega
  · intro h
    exact ⟨id.index, by omega, rfl⟩

/-- A function is none of its own operations. -/
theorem id_notMem_ops : s.id ∉ s.ops := by
  rw [mem_ops]
  omega

/-- The operations of a function are distinct. -/
theorem nodup_ops : s.ops.Nodup := by
  refine List.Nodup.map ?_ List.nodup_range'
  exact fun i j hij => OpId.mk.inj hij

/-- A function stays isolated while the module grows elsewhere.

**Proof sketch.** Field by field: what was there keeps what it refers to, and what is new refers
to new things, hence not to the function, all of which was there. -/
theorem Isolated.mono {m n : Module} {B : BlockId → Prop} (h : s.Isolated m)
    (hregion : s.region.index < m.regions.size) (hentry : s.entry.index < m.blocks.size)
    (hops : ∀ o ∈ s.ops, o.index < m.ops.size) (hbound : s.bound ≤ m.values.size)
    (hext : Module.Extends B m n) (hB : ¬B s.entry) : s.Isolated n where
  regions id hid hr := by
    rcases Nat.lt_or_ge id.index m.ops.size with hlt | hge
    · rw [hext.ops id hlt] at hr
      exact h.regions id hid hr
    · have := hext.new_regions id hge _ hr
      omega
  blocks r hr hb := by
    rcases Nat.lt_or_ge r.index m.regions.size with hlt | hge
    · rw [hext.regions r hlt] at hb
      exact h.blocks r hr hb
    · have := hext.new_blocks r hge _ hb
      omega
  members b hb o ho hmem := by
    rcases hext.new_members b o hmem with hold | ⟨hnew, _⟩
    · exact h.members b hb o ho hold
    · have := hops o ho
      omega
  parents id hid hp := by
    rcases Nat.lt_or_ge id.index m.ops.size with hlt | hge
    · rw [hext.ops id hlt] at hp
      exact h.parents id hid hp
    · rcases hext.new_parents id hge _ hp with hb | hnew
      · exact hB hb
      · omega
  results id hid v hv := by
    rcases Nat.lt_or_ge id.index m.ops.size with hlt | hge
    · rw [hext.ops id hlt] at hv
      exact h.results id hid v hv
    · have := hext.new_results id hge _ hv
      omega

/-- Arguments that are where they should be have the types of the inputs. -/
theorem typesOf_args_eq {m : Module}
    (hargs : ∀ (i : Nat) (ty : Ty), s.code.signature.inputs[i]? = some ty →
      m.value ⟨s.first + i⟩ = ⟨ty, .arg s.entry i⟩) :
    m.typesOf s.args = s.code.signature.inputs := by
  refine List.ext_getElem (by simp [Module.typesOf, FunctionSite.args]) fun i _ hi => ?_
  have hvalue := hargs i _ (List.getElem?_eq_getElem hi)
  simp [Module.typesOf, FunctionSite.args, Module.typeOf, hvalue]

namespace In

variable {m n : Module} {around : BlockId}

/-- The function has a number in the arena. -/
theorem id_lt (h : s.In m around) : s.id.index < m.ops.size :=
  Module.index_lt_of_op_ne fun hd => by
    have hp := h.op
    rw [hd] at hp
    cases congrArg Op.parent hp

/-- The function's region has a number in the arena. -/
theorem region_lt (h : s.In m around) : s.region.index < m.regions.size :=
  Module.index_lt_of_region_ne fun hd => by
    have hr := h.region
    rw [hd] at hr
    cases congrArg Region.blocks hr

/-- What a site says is a function is one. -/
theorem kind_eq (h : s.In m around) : m.kind s.id = .func .func := by
  rw [Module.kind, h.op]
  rfl

/-- A function declares its name. -/
theorem symName?_eq (h : s.In m around) : m.symName? s.id = some s.code.name := by
  rw [Module.symName?, Module.attr?, h.op]
  rfl

/-- A function has its signature. -/
theorem signature?_eq (h : s.In m around) : m.signature? s.id = some s.code.signature := by
  rw [Module.signature?, Module.attr?, h.op]
  rfl

/-- The arguments of a function have the types of its inputs. -/
theorem typesOf_args (h : s.In m around) : m.typesOf s.args = s.code.signature.inputs :=
  typesOf_args_eq h.args

/-- A function is entered at its block. -/
theorem entryBlock?_eq (h : s.In m around) : m.entryBlock? s.id = some s.entry := by
  rw [Module.entryBlock?, h.op]
  simp [Module.OpSpec.toOp, Module.functionSpec, h.region]

/-- The lines of the code have numbers in the arena. -/
theorem ops_lt (h : s.In m around) {o : OpId} (ho : o ∈ s.ops) : o.index < m.ops.size := by
  obtain ⟨next, l, _, hl⟩ := h.body.exists_line ho
  exact hl.index_lt

/-- A function stays what it is while the module grows elsewhere. -/
theorem mono {B : BlockId → Prop} (h : s.In m around) (hext : Module.Extends B m n)
    (hB : ¬B s.entry) : s.In n around where
  op := by rw [hext.ops _ h.id_lt, h.op]
  region := by rw [hext.regions _ h.region_lt, h.region]
  block := by rw [hext.blocks _ h.entry_lt hB, h.block]
  entry_lt := Nat.lt_of_lt_of_le h.entry_lt hext.size_blocks
  args i ty hi := by
    have hlt : s.first + i < m.values.size := by
      have := (List.getElem?_eq_some_iff.1 hi).1
      have := h.bound_le
      unfold bound next at this
      omega
    rw [hext.values ⟨s.first + i⟩ hlt, h.args i ty hi]
  bound_le := Nat.le_trans h.bound_le hext.size_values
  body := h.body.mono hext
  isolated := h.isolated.mono h.region_lt h.entry_lt (fun _ ho => h.ops_lt ho) h.bound_le hext hB

end In

end FunctionSite

/-! ## Adding a function -/

namespace Module

variable {m : Module} {around : BlockId}

/-- Adding a function to a block of `B`, or to a new one, extends a module. -/
theorem Extends.addFunction {B : BlockId → Prop} {n : Module} (h : Extends B m n)
    (hb : B around ∨ m.blocks.size ≤ around.index) (c : FunctionCode) :
    Extends B m (n.addFunction around c) :=
  (h.addScope _ _ hb _).addLines (.inr h.size_blocks) c.code

/-- Adding a scope to a block that is there. -/
theorem Closed.addScope (h : m.Closed) (spec : OpSpec) (location : Location)
    (hb : around.index < m.blocks.size) (argTypes : List Ty) :
    (m.addScope spec location around argTypes).Closed :=
  (h.addOp spec location hb none).appendBlock _ argTypes

/-- Emitting code to a block that is there. -/
theorem Closed.addLines (h : m.Closed) (hb : around.index < m.blocks.size)
    (code : List CodeLine) : (m.addLines around code).Closed := by
  induction code generalizing m with
  | nil => exact h
  | cons l code ih =>
    exact ih (h.addOp l.instr.spec l.location hb none) (by rwa [size_blocks_addLine])

/-- Adding a function to a block that is there. -/
theorem Closed.addFunction (h : m.Closed) (hb : around.index < m.blocks.size)
    (c : FunctionCode) : (m.addFunction around c).Closed :=
  (h.addScope _ _ hb _).addLines (by simp) c.code

/-- Where a function is that is added to a module. -/
def nextSite (m : Module) (c : FunctionCode) : FunctionSite :=
  ⟨⟨m.ops.size⟩, ⟨m.regions.size⟩, ⟨m.blocks.size⟩, m.values.size, c⟩

/-- A function is one operation more than its code has lines. -/
theorem size_ops_addFunction (c : FunctionCode) :
    (m.addFunction around c).ops.size = m.ops.size + 1 + c.code.length := by
  simp [addFunction]

/-- A function has one region. -/
theorem size_regions_addFunction (c : FunctionCode) :
    (m.addFunction around c).regions.size = m.regions.size + 1 := by
  simp [addFunction, functionSpec]

/-- The values of a function end where its site says. -/
theorem size_values_addFunction (c : FunctionCode) :
    (m.addFunction around c).values.size = (m.nextSite c).bound := by
  simp [addFunction, functionSpec, FunctionSite.bound, FunctionSite.next, nextSite]

/-- The operation of a function is the one that its specification describes. -/
theorem op_addFunction (c : FunctionCode) :
    (m.addFunction around c).op ⟨m.ops.size⟩ =
      (functionSpec c.name c.signature).toOp c.location m.values.size m.regions.size
        (some around) := by
  have hext := extends_addLines (m.addScope (functionSpec c.name c.signature) c.location around
    c.signature.inputs) ⟨m.blocks.size⟩ c.code
  rw [addFunction, hext.ops ⟨m.ops.size⟩ (by simp), op_addScope, if_pos rfl]

/-- The block of a function carries its code. -/
theorem carries_addFunction (around : BlockId) (c : FunctionCode) :
    (m.addFunction around c).Carries ⟨m.blocks.size⟩ (m.nextSite c).next (m.nextSite c).ops
      c.code := by
  have hcarries := carries_addLines (m.addScope (functionSpec c.name c.signature) c.location around
    c.signature.inputs) ⟨m.blocks.size⟩ c.code
  rw [size_values_addScope, size_ops_addScope] at hcarries
  exact hcarries

/-- An operation after a function was added: one that was there, the function, a line of its code,
or none at all. -/
theorem op_addFunction_cases (around : BlockId) (c : FunctionCode) (id : OpId) :
    (id.index < m.ops.size ∧ (m.addFunction around c).op id = m.op id) ∨
      id = ⟨m.ops.size⟩ ∨ id ∈ (m.nextSite c).ops ∨ (m.addFunction around c).op id = default := by
  rcases Nat.lt_or_ge id.index m.ops.size with hlt | hge
  · exact .inl ⟨hlt, (m.extends_addFunction around c).ops id hlt⟩
  · rcases Nat.lt_or_ge id.index (m.ops.size + 1 + c.code.length) with hin | hout
    · by_cases hid : id = ⟨m.ops.size⟩
      · exact .inr (.inl hid)
      · refine .inr (.inr (.inl (FunctionSite.mem_ops.2 ?_)))
        have hne : id.index ≠ m.ops.size := fun h => hid (OpId.index_eq_iff.1 h)
        simp only [nextSite]
        omega
    · exact .inr (.inr (.inr (op_of_le (by rwa [size_ops_addFunction]))))

/-- A function that was just added is isolated: everything else is older.

**Proof sketch.** Everything of the function is new.  What is older refers to what was counted
(`Closed`); the function's own lines own no region, and their place and results are those of its
code. -/
theorem isolated_addFunction (h : m.Closed) (hb : around.index < m.blocks.size)
    (c : FunctionCode) : (m.nextSite c).Isolated (m.addFunction around c) where
  regions id hid hr := by
    rcases m.op_addFunction_cases around c id with ⟨_, hop⟩ | rfl | hmem | hop
    · rw [hop] at hr
      exact Nat.lt_irrefl _ (h.regions id _ hr)
    · exact hid rfl
    · obtain ⟨next, l, _, hl⟩ := (carries_addFunction around c).exists_line hmem
      rw [hl.op] at hr
      cases hr
    · rw [hop] at hr
      cases hr
  blocks r hr hmem := by
    have hne : r.index ≠ m.regions.size := fun h => hr (RegionId.index_eq_iff.1 h)
    rcases Nat.lt_or_ge r.index m.regions.size with hlt | hge
    · rw [(m.extends_addFunction around c).regions r hlt] at hmem
      exact Nat.lt_irrefl _ (h.blocks r _ hmem)
    · rw [region_of_le (by rw [size_regions_addFunction]; omega)] at hmem
      cases hmem
  members b hbne o ho hmem := by
    obtain ⟨next, l, _, hl⟩ := (carries_addFunction around c).exists_line ho
    rcases (m.extends_addFunction around c).new_members b o hmem with hold | ⟨_, hparent⟩
    · have := h.members b o hold
      have := FunctionSite.mem_ops.1 ho
      simp only [nextSite] at this
      omega
    · rw [hl.op] at hparent
      exact hbne (Option.some.inj hparent).symm
  parents id hid hparent := by
    rcases m.op_addFunction_cases around c id with ⟨_, hop⟩ | rfl | hmem | hop
    · rw [hop] at hparent
      exact Nat.lt_irrefl _ (h.parents id _ hparent)
    · rw [op_addFunction] at hparent
      have heq : around = ⟨m.blocks.size⟩ := Option.some.inj hparent
      rw [heq] at hb
      exact Nat.lt_irrefl _ hb
    · exact hid hmem
    · rw [hop] at hparent
      cases hparent
  results id hid v hv := by
    rcases m.op_addFunction_cases around c id with ⟨_, hop⟩ | rfl | hmem | hop
    · rw [hop] at hv
      exact .inl (h.results id v hv)
    · rw [op_addFunction] at hv
      cases hv
    · exact absurd hmem hid
    · rw [hop] at hv
      cases hv

/-- A function that was just added is where it was put.

**Proof sketch.** The function and its region are those of the new scope, which the lines do not
touch, and its block lists the lines (`carries_addFunction`). -/
theorem in_addFunction (h : m.Closed) (hb : around.index < m.blocks.size) (c : FunctionCode) :
    (m.nextSite c).In (m.addFunction around c) around where
  op := op_addFunction c
  region := by
    rw [addFunction, region_addLines]
    exact m.region_addScope_new _ _ _ _ Nat.zero_lt_one
  block := by
    rw [addFunction]
    refine (block_addLines _ _ c.code (by simp)).trans ?_
    rw [block_addScope, if_pos rfl]
    simp [nextSite, FunctionSite.args, FunctionSite.ops, functionSpec]
  entry_lt := by simp [addFunction, nextSite]
  args i ty hi := by
    have hext := extends_addLines (m.addScope (functionSpec c.name c.signature) c.location around
      c.signature.inputs) ⟨m.blocks.size⟩ c.code
    have hlt := (List.getElem?_eq_some_iff.1 hi).1
    rw [addFunction, hext.values]
    · exact m.value_addScope_add _ _ _ _ rfl hi
    · simp only [nextSite, size_values_addScope] at hlt ⊢
      omega
  bound_le := Nat.le_of_eq (size_values_addFunction c).symm
  body := carries_addFunction around c
  isolated := isolated_addFunction h hb c

/-- A function that was added stands last in its block. -/
theorem block_addFunction (hb : around.index < m.blocks.size) (c : FunctionCode) :
    (m.addFunction around c).block around =
      { m.block around with ops := (m.block around).ops ++ [⟨m.ops.size⟩] } := by
  have hne : around ≠ ⟨m.blocks.size⟩ := by
    rintro rfl
    exact Nat.lt_irrefl _ hb
  have hext := extends_addLines (m.addScope (functionSpec c.name c.signature) c.location around
    c.signature.inputs) ⟨m.blocks.size⟩ c.code
  rw [addFunction, hext.blocks around (by simp; omega) hne, block_addScope, if_neg hne,
    if_pos ⟨rfl, hb⟩]

end Module

/-- The code at a site is that of a function. -/
def FunctionSite.Of (source : Source) (f : Function) (s : FunctionSite) : Prop :=
  f.code source s.first = .ok s.code

/-- After functions were added to a block, it lists them last, and they are there.

**Proof sketch.** Induction on the functions.  The first one is where it was put, and remains
there while the others are added, since these grow the module in another block (`In.mono`). -/
theorem sites_of_addFunctions {source : Source} {body : BlockId} {m n : Module}
    {fs : List Function} (h : addFunctions source body m fs = .ok n) (hclosed : m.Closed)
    (hbody : body.index < m.blocks.size) :
    n.Closed ∧ (∀ B : BlockId → Prop, ∀ p, Module.Extends B p m →
        (B body ∨ p.blocks.size ≤ body.index) → Module.Extends B p n) ∧
      ∃ sites : List FunctionSite, List.Forall₂ (FunctionSite.Of source) fs sites ∧
        n.block body =
          { m.block body with ops := (m.block body).ops ++ sites.map FunctionSite.id } ∧
        ∀ s ∈ sites, s.In n body ∧ m.blocks.size ≤ s.entry.index := by
  induction fs generalizing m with
  | nil =>
    simp only [addFunctions, Except.ok.injEq] at h
    subst h
    exact ⟨hclosed, fun _ _ hext _ => hext, [], .nil, by simp, by simp⟩
  | cons f fs ih =>
    obtain ⟨c, hc, h⟩ := Outcome.bind_eq_ok.1 h
    have hsize := (m.extends_addFunction body c).size_blocks
    obtain ⟨hn, hext, sites, hof, hblock, hin⟩ :=
      ih h (hclosed.addFunction hbody c) (Nat.lt_of_lt_of_le hbody hsize)
    refine ⟨hn, fun B p hp hb => hext B p (hp.addFunction hb c) hb, m.nextSite c :: sites,
      .cons hc hof, ?_, ?_⟩
    · rw [hblock, Module.block_addFunction hbody]
      simp [Module.nextSite]
    · intro s hs
      rcases List.mem_cons.1 hs with rfl | hs
      · have hne : (m.nextSite c).entry ≠ body := by
          rintro rfl
          exact Nat.lt_irrefl _ hbody
        have hrest := hext (· = body) _ (Module.Extends.refl _ _) (.inl rfl)
        exact ⟨(Module.in_addFunction hclosed hbody c).mono hrest hne, Nat.le_refl _⟩
      · exact ⟨(hin s hs).1, Nat.le_trans hsize (hin s hs).2⟩

/-! ## Contracts -/

/-- Where a contract stands: its operation, its region and its block, and its functions. -/
structure ContractSite where
  id : OpId
  region : RegionId
  body : BlockId
  name : String
  location : Location
  functions : List FunctionSite
deriving Inhabited

namespace ContractSite

/-- A module has the contract. -/
structure In (c : ContractSite) (m : Module) : Prop where
  op : m.op c.id = (Module.contractSpec c.name).toOp c.location 0 c.region.index (some ⟨0⟩)
  region : m.region c.region = ⟨[c.body], some c.id⟩
  block : m.block c.body = ⟨[], c.functions.map FunctionSite.id, c.region⟩
  body_pos : 0 < c.body.index
  body_lt : c.body.index < m.blocks.size
  functions : ∀ s ∈ c.functions, s.In m c.body ∧ 0 < s.entry.index

/-- The functions at a site are those of a contract, no two of which share a name, and the contract
has the location of its text. -/
structure Of (source : Source) (contract : Contract) (c : ContractSite) : Prop where
  name : c.name = contract.name
  location : locate source contract.src = .ok c.location
  functions : List.Forall₂ (FunctionSite.Of source) contract.functions c.functions
  distinct : overloaded? [] contract.functions = none

/-- The contract has a number in the arena. -/
theorem In.id_lt {c : ContractSite} {m : Module} (h : c.In m) : c.id.index < m.ops.size :=
  Module.index_lt_of_op_ne fun hd => by
    have hp := h.op
    rw [hd] at hp
    cases congrArg Op.parent hp

/-- The contract's region has a number in the arena. -/
theorem In.region_lt {c : ContractSite} {m : Module} (h : c.In m) :
    c.region.index < m.regions.size :=
  Module.index_lt_of_region_ne fun hd => by
    have hr := h.region
    rw [hd] at hr
    cases congrArg Region.blocks hr

/-- A contract stays what it is while the body grows. -/
theorem In.mono {c : ContractSite} {m n : Module} (h : c.In m)
    (hext : Module.Extends (· = ⟨0⟩) m n) : c.In n where
  op := by rw [hext.ops _ h.id_lt, h.op]
  region := by rw [hext.regions _ h.region_lt, h.region]
  block := by
    have hne : c.body ≠ ⟨0⟩ := fun hz => Nat.ne_of_gt h.body_pos (congrArg BlockId.index hz)
    rw [hext.blocks _ h.body_lt hne, h.block]
  body_pos := h.body_pos
  body_lt := Nat.lt_of_lt_of_le h.body_lt hext.size_blocks
  functions s hs := by
    obtain ⟨hin, hpos⟩ := h.functions s hs
    exact ⟨hin.mono hext fun hz => Nat.ne_of_gt hpos (congrArg BlockId.index hz), hpos⟩

end ContractSite

/-- **What a lowered module consists of.**  The body lists the contracts, and they are there. -/
structure Layout (source : Source) (contracts : List Contract) (sites : List ContractSite)
    (m : Module) : Prop where
  closed : m.Closed
  body : m.region Module.body = ⟨[⟨0⟩], none⟩
  top : m.block ⟨0⟩ = ⟨[], sites.map ContractSite.id, Module.body⟩
  top_lt : 0 < m.blocks.size
  contracts : List.Forall₂ (ContractSite.Of source) contracts sites
  sites : ∀ c ∈ sites, c.In m

/-- A new module consists of nothing. -/
theorem layout_new (source : Source) (location : Location) :
    Layout source [] [] (Module.new location) where
  closed := .new location
  body := rfl
  top := rfl
  top_lt := Nat.zero_lt_one
  contracts := .nil
  sites := by simp

/-- A contract to which functions were added is where it was opened.

**Proof sketch.** The contract is opened as a new scope, and the functions are added to its block
only, so its operation, its region and the body stay as the opening left them. -/
theorem in_of_addFunctions {source : Source} {m n : Module} {name : String} {location : Location}
    {fs : List Function} (hclosed : m.Closed) (htop : 0 < m.blocks.size)
    (h : addFunctions source ⟨m.blocks.size⟩ (m.openContract name location) fs = .ok n) :
    n.Closed ∧ Module.Extends (· = ⟨0⟩) m n ∧
      (n.block ⟨0⟩ = { m.block ⟨0⟩ with ops := (m.block ⟨0⟩).ops ++ [⟨m.ops.size⟩] }) ∧
      ∃ functions, List.Forall₂ (FunctionSite.Of source) fs functions ∧
        ContractSite.In ⟨⟨m.ops.size⟩, ⟨m.regions.size⟩, ⟨m.blocks.size⟩, name, location,
          functions⟩ n := by
  have hopen := m.extends_openContract name location
  have hnew : m.blocks.size < (m.openContract name location).blocks.size := by
    simp [Module.openContract]
  have hne : (⟨0⟩ : BlockId) ≠ ⟨m.blocks.size⟩ := fun hz =>
    Nat.ne_of_lt htop (congrArg BlockId.index hz)
  obtain ⟨hn, hext, functions, hof, hblock, hin⟩ := sites_of_addFunctions h
    (hclosed.addScope _ _ htop _) hnew
  have hrest := hext (· = ⟨m.blocks.size⟩) _ (Module.Extends.refl _ _) (.inl rfl)
  refine ⟨hn, hext (· = ⟨0⟩) m hopen (.inr (Nat.le_refl _)), ?_, functions, hof, ?_⟩
  · rw [hrest.blocks ⟨0⟩ (Nat.zero_lt_of_lt hnew) hne, Module.openContract, Module.block_addScope,
      if_neg hne, if_pos ⟨rfl, htop⟩]
  · exact
      { op := by
          rw [hrest.ops ⟨m.ops.size⟩ (by simp [Module.openContract]), Module.openContract,
            Module.op_addScope, if_pos rfl]
          rfl
        region := by
          rw [hrest.regions ⟨m.regions.size⟩ (by simp [Module.openContract, Module.contractSpec])]
          exact m.region_addScope_new _ _ _ _ Nat.zero_lt_one
        block := by
          rw [hblock, Module.openContract, Module.block_addScope, if_pos rfl]
          simp
        body_pos := htop
        body_lt := Nat.lt_of_lt_of_le hnew hrest.size_blocks
        functions := fun s hs => ⟨(hin s hs).1,
          Nat.lt_of_lt_of_le (Nat.zero_lt_of_lt hnew) (hin s hs).2⟩ }

/-- A contract that is added stands last.

**Proof sketch.** The contract stands where it was opened (`in_of_addFunctions`), behind the
others, which stay where they are because only the body has grown (`ContractSite.In.mono`). -/
theorem layout_of_addContract {source : Source} {contracts : List Contract}
    {sites : List ContractSite} {m n : Module} {c : Contract}
    (h : addContract source m c = .ok n) (hlayout : Layout source contracts sites m) :
    ∃ site, Layout source (contracts ++ [c]) (sites ++ [site]) n := by
  obtain ⟨location, hloc, hdistinct, hadd⟩ := addContract_eq_ok h
  obtain ⟨hn, hext, hblock, functions, hof, hin⟩ :=
    in_of_addFunctions hlayout.closed hlayout.top_lt hadd
  refine ⟨⟨⟨m.ops.size⟩, ⟨m.regions.size⟩, ⟨m.blocks.size⟩, c.name, location, functions⟩, ?_⟩
  exact
    { closed := hn
      body := region_body_addContract hlayout.body h
      top := by
        rw [hblock, hlayout.top]
        simp
      top_lt := Nat.lt_of_lt_of_le hlayout.top_lt hext.size_blocks
      contracts := List.rel_append hlayout.contracts (.cons ⟨rfl, hloc, hof, hdistinct⟩ .nil)
      sites := fun site hsite => by
        rcases List.mem_append.1 hsite with hsite | hsite
        · exact (hlayout.sites site hsite).mono hext
        · rw [List.mem_singleton.1 hsite]
          exact hin }

/-- **The module that contracts were added to consists of them.** -/
theorem layout_of_addContracts {source : Source} {done contracts : List Contract}
    {sites : List ContractSite} {m n : Module} (h : addContracts source m contracts = .ok n)
    (hlayout : Layout source done sites m) :
    ∃ more, Layout source (done ++ contracts) (sites ++ more) n := by
  induction contracts generalizing m done sites with
  | nil =>
    simp only [addContracts, Except.ok.injEq] at h
    subst h
    exact ⟨[], by simpa using hlayout⟩
  | cons c cs ih =>
    obtain ⟨p, hp, h⟩ := Outcome.bind_eq_ok.1 h
    obtain ⟨site, hsite⟩ := layout_of_addContract hp hlayout
    obtain ⟨more, hmore⟩ := ih h hsite
    exact ⟨site :: more, by simpa using hmore⟩

/-- A module that lowering gives out consists of the contracts, and is verified. -/
theorem layout_of_lowerContracts {source : Source} {contracts : List Contract} {m : Module}
    (h : lowerContracts source contracts = .ok m) :
    m.verify = .ok () ∧ ∃ sites, Layout source contracts sites m := by
  rw [lowerContracts_eq] at h
  obtain ⟨location, _, h⟩ := Outcome.bind_eq_ok.1 h
  obtain ⟨n, hadd, h⟩ := Outcome.bind_eq_ok.1 h
  cases hv : n.verify with
  | error e =>
    rw [hv] at h
    cases h
  | ok u =>
    rw [hv] at h
    cases h
    exact ⟨hv, layout_of_addContracts hadd (layout_new source location)⟩

end ContractIR
