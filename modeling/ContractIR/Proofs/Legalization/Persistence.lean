import ContractIR.EraVM.Patterns
import ContractIR.Proofs.Lowering.Layout

/-!
# Functions while a module is legalized

A function of a lowered module keeps its region, its block and its lines while the module around it
is taken apart.  It may move to another block, and it and its lines may be converted to their
low-level forms, one by one.  This is an invariant of all the elementary changes that legalization
is made of, as long as they keep away from the function's block and lines.

## Main definitions

* `ContractIR.Instr.lowKind`, `ContractIR.CodeLine.toLowOp`, `ContractIR.Module.IsLowLine` — lines
  after their conversion.
* `ContractIR.FunctionSite.Persists` — a module has the function, converted or not.

## Main results

* `ContractIR.FunctionSite.Persists.of_extends`, `of_detachOp`, `of_insertOp`, `of_modifyOp`,
  `of_setType` — changes elsewhere.
* `ContractIR.FunctionSite.Persists.of_convert` — the conversion of a line.
-/

set_option autoImplicit false

namespace ContractIR

/-! ## Converted lines -/

namespace Instr

/-- The kind of the low-level operation. -/
def lowKind : Instr → LlvmOp
  | .constant .. => .constant
  | .arith .add .. => .add
  | .arith .mul .. => .mul
  | .extend true .. => .sext
  | .extend false .. => .zext
  | .alloca _ => .alloca
  | .load .. => .load
  | .store .. => .store
  | .ret _ => .ret

/-- The attributes of the low-level operation: a stack slot says what it holds. -/
def lowAttrs : Instr → AttrDict
  | .alloca elem => AttrDict.set {} AttrName.elemType (.type elem)
  | i => i.attrs

/-- The type of the low-level operation's result: a stack slot is known by a pointer. -/
def lowResult? : Instr → Option Ty
  | .alloca _ => some EraVM.AddressSpace.stack.ptr
  | i => i.result?

/-- No instruction has more than one result. -/
theorem count_le_one (i : Instr) : i.count ≤ 1 := by
  rw [count]
  cases i.result? with
  | none => exact Nat.zero_le _
  | some ty => exact Nat.le_refl _

/-- The low-level operation has as many results. -/
theorem length_lowResult? (i : Instr) : i.lowResult?.toList.length = i.count := by
  cases i <;> rfl

end Instr

/-- The low-level operation of a line. -/
def CodeLine.toLowOp (l : CodeLine) (next : Nat) (b : BlockId) : Op :=
  { l.toOp next b with kind := .llvm l.instr.lowKind, attrs := l.instr.lowAttrs }

/-- Operation `id` of block `b` is a line after its conversion. -/
structure Module.IsLowLine (m : Module) (b : BlockId) (next : Nat) (id : OpId) (l : CodeLine) :
    Prop where
  op : m.op id = l.toLowOp next b
  value : ∀ ty, l.instr.lowResult? = some ty →
    next < m.values.size ∧ m.value ⟨next⟩ = ⟨ty, .result id 0⟩

/-- Operation `id` of block `b` is a line, converted or not. -/
def Module.IsEitherLine (m : Module) (b : BlockId) (next : Nat) (id : OpId) (l : CodeLine) : Prop :=
  m.IsLine b next id l ∨ m.IsLowLine b next id l

namespace Module.IsEitherLine

variable {m n : Module} {b : BlockId} {next : Nat} {id : OpId} {l : CodeLine}

/-- What the two forms of a line have in common. -/
theorem common (h : m.IsEitherLine b next id l) :
    (m.op id).operands = l.instr.operands ∧
      (m.op id).results = (List.range l.instr.count).map (fun i => ⟨next + i⟩) ∧
      (m.op id).regions = [] ∧ (m.op id).parent = some b := by
  rcases h with h | h
  · rw [h.op]
    exact ⟨rfl, rfl, rfl, rfl⟩
  · rw [h.op]
    exact ⟨rfl, rfl, rfl, rfl⟩

/-- The two kinds of a line. -/
theorem kind_eq (h : m.IsEitherLine b next id l) :
    m.kind id = l.instr.kind ∨ m.kind id = .llvm l.instr.lowKind := by
  rcases h with h | h
  · rw [Module.kind, h.op]
    exact .inl rfl
  · rw [Module.kind, h.op]
    exact .inr rfl

/-- A line is no symbol. -/
theorem kind_isSymbol (h : m.IsEitherLine b next id l) : (m.kind id).isSymbol = false := by
  rcases h.kind_eq with hk | hk
  · rw [hk, Instr.kind_isSymbol]
  · rw [hk]
    cases l.instr with
    | arith op => cases op <;> rfl
    | extend signed => cases signed <;> rfl
    | _ => rfl

/-- The operation of a line has a number in the arena. -/
theorem index_lt (h : m.IsEitherLine b next id l) : id.index < m.ops.size :=
  index_lt_of_op_ne fun hd => by
    have hp := h.common.2.2.2
    rw [hd] at hp
    cases hp

/-- The result of a line knows its operation. -/
theorem origin_eq (h : m.IsEitherLine b next id l) (hcount : 0 < l.instr.count) :
    (m.value ⟨next⟩).origin = .result id 0 := by
  rcases h with h | h
  · obtain ⟨ty, hty⟩ : ∃ ty, l.instr.result? = some ty := by
      cases hr : l.instr.result? with
      | none => simp [Instr.count, hr] at hcount
      | some ty => exact ⟨ty, rfl⟩
    rw [(h.value ty hty).2]
  · obtain ⟨ty, hty⟩ : ∃ ty, l.instr.lowResult? = some ty := by
      cases hr : l.instr.lowResult? with
      | none => simp [← Instr.length_lowResult?, hr] at hcount
      | some ty => exact ⟨ty, rfl⟩
    rw [(h.value ty hty).2]

/-- Two lines with one result are one line, because a value knows where it comes from. -/
theorem eq_of_mem_results {next' : Nat} {id' : OpId} {l' : CodeLine}
    (h : m.IsEitherLine b next id l) (h' : m.IsEitherLine b next' id' l')
    (hcount : 0 < l'.instr.count) (hmem : ⟨next'⟩ ∈ (m.op id).results) : id' = id := by
  rw [h.common.2.1] at hmem
  obtain ⟨i, hi, heq⟩ := List.mem_map.1 hmem
  have hlt : i < l.instr.count := List.mem_range.1 hi
  have hone := l.instr.count_le_one
  obtain rfl : i = 0 := by omega
  have horigin := h.origin_eq hlt
  rw [show (⟨next⟩ : ValueId) = ⟨next'⟩ from heq, h'.origin_eq hcount] at horigin
  exact (ValueDef.result.inj horigin).1

/-- A line is the same line where its operation and its result are the same. -/
theorem congr (h : m.IsEitherLine b next id l) (hop : n.op id = m.op id)
    (hvalue : 0 < l.instr.count → n.value ⟨next⟩ = m.value ⟨next⟩)
    (hsize : m.values.size ≤ n.values.size) : n.IsEitherLine b next id l := by
  rcases h with h | h
  · refine .inl ⟨hop.trans h.op, fun ty hty => ?_⟩
    have hcount : 0 < l.instr.count := by simp [Instr.count, hty]
    obtain ⟨hlt, hval⟩ := h.value ty hty
    exact ⟨Nat.lt_of_lt_of_le hlt hsize, (hvalue hcount).trans hval⟩
  · refine .inr ⟨hop.trans h.op, fun ty hty => ?_⟩
    have hcount : 0 < l.instr.count := by simp [← Instr.length_lowResult?, hty]
    obtain ⟨hlt, hval⟩ := h.value ty hty
    exact ⟨Nat.lt_of_lt_of_le hlt hsize, (hvalue hcount).trans hval⟩

end Module.IsEitherLine

/-- Along code, the results of every line have numbers between those of the code. -/
theorem AlongCode.bounds {P : Nat → OpId → CodeLine → Prop} {next : Nat} {ids : List OpId}
    {code : List CodeLine} (h : AlongCode P next ids code) :
    AlongCode (fun next' id l => P next' id l ∧ next ≤ next' ∧
      next' + l.instr.count ≤ next + codeCount code) next ids code := by
  induction h with
  | nil next => exact .nil next
  | @cons next id ids l code line _ ih =>
    refine .cons ⟨line, Nat.le_refl _, by rw [codeCount_cons]; omega⟩ (ih.imp ?_)
    rintro next' id' l' _ ⟨hP, hle, hge⟩
    refine ⟨hP, by omega, ?_⟩
    rw [codeCount_cons]
    omega

/-! ## Isolation -/

namespace FunctionSite

variable {s : FunctionSite} {m n : Module}

namespace Isolated

/-- Taking an operation out of its block adds no references.

**Proof sketch.** Detaching removes a place and a member of a list and touches nothing else, so
every reference was there before. -/
theorem of_detachOp (h : s.Isolated m) (id : OpId) : s.Isolated (m.detachOp id) where
  regions j hj hr := by
    rw [Module.op_detachOp] at hr
    split at hr
    · exact h.regions j hj hr
    · exact h.regions j hj hr
  blocks r hr hb := by
    rw [Module.region_detachOp] at hb
    exact h.blocks r hr hb
  members b hb o ho hmem := by
    rw [Module.block_detachOp] at hmem
    split at hmem
    · exact h.members b hb o ho (List.mem_of_mem_filter hmem)
    · exact h.members b hb o ho hmem
  parents j hj hp := by
    rw [Module.op_detachOp] at hp
    split at hp
    · cases hp
    · exact h.parents j hj hp
  results j hj v hv := by
    rw [Module.op_detachOp] at hv
    split at hv
    · exact h.results j hj v hv
    · exact h.results j hj v hv

/-- Putting an operation into another block.

**Proof sketch.** The only new references are the place of the operation, which is another block,
and the member of that block, which is no line. -/
theorem of_insertOp (h : s.Isolated m) {b : BlockId} (hb : b ≠ s.entry) (index : Option Nat)
    {id : OpId} (hid : id ∉ s.ops) : s.Isolated (m.insertOp b index id) where
  regions j hj hr := by
    rw [Module.op_insertOp] at hr
    split at hr
    · exact h.regions j hj hr
    · exact h.regions j hj hr
  blocks r hr hx := by
    rw [Module.region_insertOp] at hx
    exact h.blocks r hr hx
  members x hx o ho hmem := by
    rw [Module.block_insertOp] at hmem
    split at hmem
    · simp only [Module.mem_placeAt] at hmem
      rcases hmem with rfl | hmem
      · exact hid ho
      · exact h.members x hx o ho hmem
    · exact h.members x hx o ho hmem
  parents j hj hp := by
    rw [Module.op_insertOp] at hp
    split at hp
    · exact hb (Option.some.inj hp)
    · exact h.parents j hj hp
  results j hj v hv := by
    rw [Module.op_insertOp] at hv
    split at hv
    · exact h.results j hj v hv
    · exact h.results j hj v hv

/-- Changing an operation in what it does, not in what it owns or where it stands.

**Proof sketch.** The operation owns what it owned, has the results that it had and stands where
it stood, so every reference was there before. -/
theorem of_modifyOp (h : s.Isolated m) (id : OpId) {f : Op → Op}
    (hregions : ∀ o, (f o).regions = o.regions) (hresults : ∀ o, (f o).results = o.results)
    (hparent : ∀ o, (f o).parent = o.parent) : s.Isolated (m.modifyOp id f) where
  regions j hj hr := by
    rw [Module.op_modifyOp] at hr
    split at hr
    · rw [hregions] at hr
      exact h.regions j hj hr
    · exact h.regions j hj hr
  blocks := h.blocks
  members := h.members
  parents j hj hp := by
    rw [Module.op_modifyOp] at hp
    split at hp
    · rw [hparent] at hp
      exact h.parents j hj hp
    · exact h.parents j hj hp
  results j hj v hv := by
    rw [Module.op_modifyOp] at hv
    split at hv
    · rw [hresults] at hv
      exact h.results j hj v hv
    · exact h.results j hj v hv

/-- Changing a line of the function, which owns no regions.

**Proof sketch.** A line is none of the operations whose places and results are asked about, and
it owns no region; all others are as they were. -/
theorem of_line (h : s.Isolated m) {id : OpId} (hid : id ∈ s.ops)
    (hops : ∀ j, j ≠ id → n.op j = m.op j) (hregions : (n.op id).regions = [])
    (hblock : ∀ b, n.block b = m.block b) (hregion : ∀ r, n.region r = m.region r) :
    s.Isolated n where
  regions j hj hr := by
    by_cases hc : j = id
    · subst hc
      rw [hregions] at hr
      cases hr
    · rw [hops j hc] at hr
      exact h.regions j hj hr
  blocks r hr hb := by
    rw [hregion] at hb
    exact h.blocks r hr hb
  members b hb o ho hm := by
    rw [hblock] at hm
    exact h.members b hb o ho hm
  parents j hj hp := by
    rw [hops j fun hc => hj (hc ▸ hid)] at hp
    exact h.parents j hj hp
  results j hj v hv := by
    rw [hops j fun hc => hj (hc ▸ hid)] at hv
    exact h.results j hj v hv

end Isolated

/-! ## Persistence -/

/-- A module has the function, wherever it stands; it and its lines may be converted. -/
structure Persists (s : FunctionSite) (m : Module) : Prop where
  id_lt : s.id.index < m.ops.size
  regions : (m.op s.id).regions = [s.region]
  kind : m.kind s.id = .func .func ∨ m.kind s.id = .llvm .func
  name : m.symName? s.id = some s.code.name
  region : m.region s.region = ⟨[s.entry], some s.id⟩
  block : m.block s.entry = ⟨s.args, s.ops, s.region⟩
  entry_lt : s.entry.index < m.blocks.size
  args : ∀ (i : Nat) (ty : Ty), s.code.signature.inputs[i]? = some ty →
    m.value ⟨s.first + i⟩ = ⟨ty, .arg s.entry i⟩
  bound_le : s.bound ≤ m.values.size
  body : AlongCode (m.IsEitherLine s.entry) s.next s.ops s.code.code
  isolated : s.Isolated m

/-- A function of a lowered module persists in it. -/
theorem In.persists {around : BlockId} (h : s.In m around) : s.Persists m where
  id_lt := h.id_lt
  regions := by
    rw [h.op]
    rfl
  kind := .inl h.kind_eq
  name := h.symName?_eq
  region := h.region
  block := h.block
  entry_lt := h.entry_lt
  args := h.args
  bound_le := h.bound_le
  body := h.body.imp fun _ _ _ _ hl => .inl hl
  isolated := h.isolated

namespace Persists

/-- The function is a function. -/
theorem isFunction (h : s.Persists m) : (m.kind s.id).isFunction = true := by
  rcases h.kind with hk | hk
  · rw [hk]
    rfl
  · rw [hk]
    rfl

/-- Every line of the function, with its number. -/
theorem exists_line (h : s.Persists m) {id : OpId} (hid : id ∈ s.ops) :
    ∃ next l, m.IsEitherLine s.entry next id l ∧ s.next ≤ next ∧
      next + l.instr.count ≤ s.bound := by
  obtain ⟨next, l, _, hl, hle, hge⟩ := h.body.bounds.exists_line hid
  exact ⟨next, l, hl, hle, hge⟩

/-- What declares a symbol is no line of the function. -/
theorem notMem_ops_of_isSymbol (h : s.Persists m) {id : OpId}
    (hsymbol : (m.kind id).isSymbol = true) : id ∉ s.ops := by
  intro hid
  obtain ⟨_, _, hl, _⟩ := h.exists_line hid
  rw [hl.kind_isSymbol] at hsymbol
  cases hsymbol

/-- Lines have numbers in the arena. -/
theorem ops_lt (h : s.Persists m) {o : OpId} (ho : o ∈ s.ops) : o.index < m.ops.size := by
  obtain ⟨_, _, hl, _⟩ := h.exists_line ho
  exact hl.index_lt

/-- The region of a function that persists is there. -/
theorem region_lt (h : s.Persists m) : s.region.index < m.regions.size :=
  Module.index_lt_of_region_ne fun hd => by
    have hr := h.region
    rw [hd] at hr
    cases congrArg Region.blocks hr

/-- **The function persists where its parts are the same**: its lines, its region, its block and its
values, and of its own operation what it owns, its name and that it is a function.

**Proof sketch.** Field by field from what stays the same.  The values of the lines lie between
`first` and `bound`, so `hvalues` covers them. -/
theorem of_same (h : s.Persists m) (hid : s.id.index < n.ops.size)
    (hregions : (n.op s.id).regions = (m.op s.id).regions)
    (hkind : n.kind s.id = .func .func ∨ n.kind s.id = .llvm .func)
    (hname : n.symName? s.id = m.symName? s.id)
    (hregion : n.region s.region = m.region s.region)
    (hblock : n.block s.entry = m.block s.entry) (hsize : m.blocks.size ≤ n.blocks.size)
    (hops : ∀ o ∈ s.ops, n.op o = m.op o)
    (hvalues : ∀ v : ValueId, s.first ≤ v.index → v.index < s.bound → n.value v = m.value v)
    (hbound : m.values.size ≤ n.values.size) (hisolated : s.Isolated n) : s.Persists n where
  id_lt := hid
  regions := hregions.trans h.regions
  kind := hkind
  name := hname.trans h.name
  region := hregion.trans h.region
  block := hblock.trans h.block
  entry_lt := Nat.lt_of_lt_of_le h.entry_lt hsize
  args i ty hi := by
    have hlt := (List.getElem?_eq_some_iff.1 hi).1
    rw [hvalues ⟨s.first + i⟩ (Nat.le_add_right _ _) (by unfold bound next; simp only; omega),
      h.args i ty hi]
  bound_le := Nat.le_trans h.bound_le hbound
  body := by
    refine h.body.bounds.imp fun next o l ho hl => ?_
    obtain ⟨hl, hle, hge⟩ := hl
    refine hl.congr (hops o ho) (fun hcount => hvalues _ ?_ ?_) hbound
    · have hfirst : s.first ≤ s.next := Nat.le_add_right _ _
      exact Nat.le_trans hfirst hle
    · unfold bound
      simp only
      omega
  isolated := hisolated

/-- The module grows elsewhere. -/
theorem of_extends {B : BlockId → Prop} (h : s.Persists m) (hext : Module.Extends B m n)
    (hB : ¬B s.entry) : s.Persists n := by
  have hself := hext.ops s.id h.id_lt
  refine h.of_same (Nat.lt_of_lt_of_le h.id_lt hext.size_ops) (by rw [hself]) ?_ ?_
    (hext.regions _ h.region_lt) (hext.blocks _ h.entry_lt hB) hext.size_blocks
    (fun o ho => hext.ops o (h.ops_lt ho)) (fun v _ hv => hext.values v ?_) hext.size_values ?_
  · rw [Module.kind, hself]
    exact h.kind
  · rw [Module.symName?, Module.attr?, hself]
    rfl
  · exact Nat.lt_of_lt_of_le hv h.bound_le
  · exact h.isolated.mono h.region_lt h.entry_lt (fun _ ho => h.ops_lt ho) h.bound_le hext hB

/-- An operation that is no line is taken out of its block. -/
theorem of_detachOp (h : s.Persists m) {id : OpId} (hid : id ∉ s.ops) :
    s.Persists (m.detachOp id) := by
  refine h.of_same (by simpa using h.id_lt) ?_ ?_ ?_ (by simp) ?_ (by simp) ?_
    (fun _ _ _ => by simp) (by simp) (h.isolated.of_detachOp id)
  · rw [Module.op_detachOp]
    split <;> rfl
  · rw [Module.kind, Module.op_detachOp]
    split
    · exact h.kind
    · exact h.kind
  · rw [Module.symName?, Module.attr?, Module.op_detachOp]
    split <;> rfl
  · rw [Module.block_detachOp, if_neg fun hc => h.isolated.parents id hid hc.1]
  · intro o ho
    have hne : o ≠ id := fun hc => hid (hc ▸ ho)
    rw [Module.op_detachOp, if_neg hne]

/-- An operation that is no line is put into another block. -/
theorem of_insertOp (h : s.Persists m) {b : BlockId} (hb : b ≠ s.entry) (index : Option Nat)
    {id : OpId} (hid : id ∉ s.ops) : s.Persists (m.insertOp b index id) := by
  refine h.of_same (by simpa using h.id_lt) ?_ ?_ ?_ (by simp) ?_ (by simp) ?_
    (fun _ _ _ => by simp) (by simp) (h.isolated.of_insertOp hb index hid)
  · rw [Module.op_insertOp]
    split <;> rfl
  · rw [Module.kind, Module.op_insertOp]
    split
    · exact h.kind
    · exact h.kind
  · rw [Module.symName?, Module.attr?, Module.op_insertOp]
    split <;> rfl
  · rw [Module.block_insertOp, if_neg fun hc => hb hc.1.symm]
  · intro o ho
    have hne : o ≠ id := fun hc => hid (hc ▸ ho)
    rw [Module.op_insertOp, if_neg fun hc => hne hc.1]

/-- An operation that is no line is changed in what it does; the function itself stays a function
and keeps its name.

**Proof sketch.** `of_same`: of the function itself the change keeps regions, kind and name, the
lines are other operations, and regions, blocks and values are not touched. -/
theorem of_modifyOp (h : s.Persists m) {id : OpId} (hid : id ∉ s.ops) {f : Op → Op}
    (hregions : ∀ o, (f o).regions = o.regions) (hresults : ∀ o, (f o).results = o.results)
    (hparent : ∀ o, (f o).parent = o.parent)
    (hkind : id = s.id → (f (m.op s.id)).kind = .func .func ∨ (f (m.op s.id)).kind = .llvm .func)
    (hname : ∀ o, (f o).attrs.get? AttrName.symName = o.attrs.get? AttrName.symName) :
    s.Persists (m.modifyOp id f) := by
  refine h.of_same (by simpa using h.id_lt) ?_ ?_ ?_ (by simp) (by simp) (by simp) ?_
    (fun _ _ _ => by simp) (by simp) (h.isolated.of_modifyOp id hregions hresults hparent)
  · rw [Module.op_modifyOp]
    split
    · rw [hregions]
    · rfl
  · rw [Module.kind, Module.op_modifyOp]
    split
    · rename_i hc
      exact hkind hc.1.symm
    · exact h.kind
  · rw [Module.symName?, Module.attr?, Module.op_modifyOp]
    split
    · rw [hname]
      rfl
    · rfl
  · intro o ho
    have hne : o ≠ id := fun hc => hid (hc ▸ ho)
    rw [Module.op_modifyOp_of_ne _ _ hne]

/-- A result of an operation that is no line gets another type. -/
theorem of_setType (h : s.Persists m) {id : OpId} (hid : id ∉ s.ops) {v : ValueId}
    (hv : v ∈ (m.op id).results) (ty : Ty) : s.Persists (m.setType v ty) := by
  refine h.of_same h.id_lt rfl h.kind rfl rfl rfl (Nat.le_refl _) (fun _ _ => rfl) ?_ (by simp)
    ⟨h.isolated.regions, h.isolated.blocks, h.isolated.members, h.isolated.parents,
      h.isolated.results⟩
  intro u hfirst hbound
  have hne : u ≠ v := by
    rintro rfl
    have := h.isolated.results id hid u hv
    omega
  rw [Module.value_setType, if_neg fun hc => hne hc.1]

/-- **A line is converted.**  Everything else stays the same, but for the types of its results.

**Proof sketch.** The function itself is not a line, so it is as it was.  The line becomes what
`hline` says; the others are as they were, and so are their values, because the values whose types
change are results of the converted line only. -/
theorem of_convert (h : s.Persists m) {id : OpId} (hid : id ∈ s.ops)
    (hline : ∀ next l, m.IsEitherLine s.entry next id l → n.IsEitherLine s.entry next id l)
    (hops : ∀ j, j ≠ id → n.op j = m.op j) (hsize : m.ops.size = n.ops.size)
    (hblocks : n.blocks = m.blocks) (hregions : n.regions = m.regions)
    (hvalues : ∀ v, v ∉ (m.op id).results → n.value v = m.value v)
    (hbound : m.values.size ≤ n.values.size) : s.Persists n := by
  have hblock : ∀ b, n.block b = m.block b := fun b => by rw [Module.block, Module.block, hblocks]
  have hregion : ∀ r, n.region r = m.region r := fun r => by
    rw [Module.region, Module.region, hregions]
  have hself : n.op s.id = m.op s.id := hops s.id fun hc => id_notMem_ops (hc ▸ hid)
  obtain ⟨k, l, hl, hle, _⟩ := h.exists_line hid
  have hresults : ∀ v ∈ (m.op id).results, s.next ≤ v.index := by
    intro v hv
    rw [hl.common.2.1] at hv
    obtain ⟨i, _, rfl⟩ := List.mem_map.1 hv
    exact Nat.le_trans hle (Nat.le_add_right _ _)
  exact
    { id_lt := hsize ▸ h.id_lt
      regions := by rw [hself, h.regions]
      kind := by
        rw [Module.kind, hself]
        exact h.kind
      name := by
        rw [Module.symName?, Module.attr?, hself]
        exact h.name
      region := (hregion _).trans h.region
      block := (hblock _).trans h.block
      entry_lt := by
        rw [hblocks]
        exact h.entry_lt
      args := fun i ty hi => by
        have hlt := (List.getElem?_eq_some_iff.1 hi).1
        rw [hvalues, h.args i ty hi]
        intro hv
        have hge := hresults _ hv
        unfold next at hge
        simp only at hge
        omega
      bound_le := Nat.le_trans h.bound_le hbound
      body := h.body.imp fun next o l' _ hl' => by
        by_cases ho : o = id
        · subst ho
          exact hline next l' hl'
        · refine hl'.congr (hops o ho) (fun hcount => hvalues _ fun hv => ho ?_) hbound
          exact hl.eq_of_mem_results hl' hcount hv
      isolated := h.isolated.of_line hid hops (hline k l hl).common.2.2.1 hblock hregion }

end Persists

end FunctionSite

end ContractIR
