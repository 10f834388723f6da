import ContractIR.Proofs.Legalization.Routines

/-!
# Symbols that legalization declares

Before the containers are taken apart, the body gains the globals of the ABI, the return function,
the entry function, and two functions for the code of containers.  Each joins the body only if its
name is not declared there.  The invariant of this stage says that what was generated under a name
of the ABI has the signature, or the kind, that code relies on, and that all blocks of functions
are ended but those of the two functions for code.

## Main definitions

* `ContractIR.EraVM.Serves` — an operation is what code takes a name of the ABI for.
* `ContractIR.EraVM.Staged` — the invariant of legalization as far as symbols go.
* `ContractIR.EraVM.Splitting` — the invariant while functions for code are open.
* `ContractIR.EraVM.Gains` — the body gains some names.
* `ContractIR.EraVM.withRoutine` — the module with a function for the code of a context.

## Main results

* `ContractIR.EraVM.Splitting.of_joins` — new symbols keep the invariant.
* `ContractIR.EraVM.exists_declareSymbols`, `exists_codeFunction`, `gains_buildEntry` — the symbols
  that are declared.
* `ContractIR.EraVM.exists_terminate` — an open function is ended.
-/

set_option autoImplicit false

namespace ContractIR.EraVM

open ContractIR.Module (Extends Joins)

variable {env : Env} {containers : List OpId} {m n p : Module}

/-! ## The stage -/

/-- An operation is what code takes a name of the ABI for. -/
structure Serves (m : Module) (name : String) (id : OpId) : Prop where
  signature : ∀ s, abiSignature? name = some s →
    (m.kind id).isFunction = true ∧ m.signature? id = some s
  global : ∀ g : Global, name = g.name → m.kind id = .llvm .global

/-- What an operation is taken for depends on its kind and its attributes. -/
theorem Serves.congr {name : String} {id : OpId} (h : Serves m name id) (hop : n.op id = m.op id) :
    Serves n name id := by
  have hkind : n.kind id = m.kind id := by rw [Module.kind, hop]; rfl
  have hsignature : n.signature? id = m.signature? id := by
    rw [Module.signature?, Module.attr?, hop]
    rfl
  refine ⟨fun s hs => ?_, fun g hg => hkind.trans (h.global g hg)⟩
  rw [hkind, hsignature]
  exact h.signature s hs

/-- No global has the name of a function of the ABI. -/
theorem Global.name_ne (g : Global) : g.name ≠ entryName ∧ g.name ≠ deployName ∧
    g.name ≠ runtimeName ∧ g.name ≠ returnName := by
  cases g <;> decide

/-- The globals of the ABI are not called. -/
theorem abiSignature?_global (g : Global) : abiSignature? g.name = none := by
  obtain ⟨-, hdeploy, hruntime, hreturn⟩ := g.name_ne
  rw [abiSignature?, if_neg hreturn, if_neg (not_or.2 ⟨hdeploy, hruntime⟩)]

/-- The names of the two functions for the code of containers. -/
def IsRoutine (name : String) : Prop := name = deployName ∨ name = runtimeName

/-- The body declares symbols with distinct names, among them the given containers. -/
structure Staged (env : Env) (containers : List OpId) (m : Module) : Prop where
  typed : m.WellTyped env
  top : m.TopLevel
  containers : ((m.block ⟨0⟩).ops.filter fun o => (m.kind o).isContainer) = containers

/-- What is not a container serves under its name, and functions for code have a marker.  Of some
names, the operations that go by them are open: they have a block without a terminator. -/
structure Splitting (env : Env) (containers : List OpId) (opens : String → Prop) (m : Module) :
    Prop extends Staged env containers m where
  serves : ∀ name id, m.Declares name id → (m.kind id).isContainer = false → Serves m name id
  marked : ∀ name id, m.Declares name id → IsRoutine name → (m.kind id).isContainer = false →
    ∃ marker, m.attr? id AttrName.isRuntime = some (.bool marker)
  routines : ∀ name id, m.Declares name id → opens name → ∃ e, m.entryBlock? id = some e ∧
    ∀ o ∈ (m.block e).ops, (m.kind o).isTerminator = false
  ended : m.EndedBut fun e => ∃ name id, m.Declares name id ∧ opens name ∧
    m.entryBlock? id = some e

/-- A symbol with a new name joins the body. -/
theorem Staged.of_joins (h : Staged env containers m) (htyped : n.WellTyped env) {id : OpId}
    {name : String} (hjoins : Joins m n id name) (hfree : ¬m.Declared name) :
    Staged env containers n where
  typed := htyped
  top := hjoins.topLevel h.top hfree
  containers := hjoins.filter_isContainer.trans h.containers

/-- The body has a block. -/
theorem Staged.run_needBody (h : Staged env containers m) :
    Transform.needBody.run m = .ok () m := by
  refine run_needBody_eq_ok.2 ⟨?_, rfl⟩
  rw [Module.hasBody, h.top.body]
  rfl

/-- What the body declares stays the same when a module grows, and is entered at the same block. -/
theorem Staged.same_of_extends (h : Staged env containers m) {B : BlockId → Prop}
    (hext : Extends B m n) {x : String} {j : OpId} (hj : m.Declares x j) :
    n.op j = m.op j ∧ n.entryBlock? j = m.entryBlock? j :=
  ⟨hext.ops j (h.typed.ops_lt hj.1),
    Module.entryBlock?_of_extends h.typed.toLinked hext (h.typed.ops_lt hj.1)⟩

/-- The containers that stand directly in the body. -/
theorem Staged.topContainers_eq (h : Staged env containers m) : topContainers m = containers := by
  rw [topContainers, h.top.topLevel_eq, h.containers]

/-- The block at which an operation is entered is not that of the body. -/
theorem Staged.entry_ne (h : Staged env containers m) {id : OpId} {e : BlockId}
    (he : m.entryBlock? id = some e) : e ≠ ⟨0⟩ := by
  rintro rfl
  have howner := (Module.owner?_of_entryBlock? h.typed.toLinked he).2
  rw [(Module.owner?_body h.typed.toLinked h.top.body).2] at howner
  cases howner

/-- A symbol joins the body while functions for code are open.  If it is such a function itself,
it may have an open block; every other block of it is ended.

**Proof sketch.** A declaration is an old one, about which nothing changes, or the new one, about
which the hypotheses speak.  The blocks of old functions are as they were, because only the body
grows. -/
theorem Splitting.of_joins (h : Splitting env containers IsRoutine m) (htyped : n.WellTyped env)
    {id : OpId} {name : String} (hjoins : Joins m n id name) (hext : Extends (· = ⟨0⟩) m n)
    (hfree : ¬m.Declared name) (hserves : Serves n name id)
    (hroutine : IsRoutine name → (∃ e, n.entryBlock? id = some e ∧
      ∀ o ∈ (n.block e).ops, (n.kind o).isTerminator = false) ∧
      ∃ marker, n.attr? id AttrName.isRuntime = some (.bool marker))
    (hnew : ∀ b : BlockId, m.blocks.size ≤ b.index → n.InFunction b →
      IsRoutine name ∧ n.entryBlock? id = some b ∨ n.Ended b) :
    Splitting env containers IsRoutine n := by
  have hlinked := h.typed.toLinked
  have hold {x : String} {j : OpId} (hj : m.Declares x j) := h.same_of_extends hext hj
  refine
    { toStaged := h.toStaged.of_joins htyped hjoins hfree
      serves := ?_
      marked := ?_
      routines := ?_
      ended := ?_ }
  · intro x j hj hcontainer
    rcases hjoins.declares_iff.1 hj with hj | ⟨rfl, rfl⟩
    · rw [(hjoins.old j hj.1).1] at hcontainer
      exact (h.serves x j hj hcontainer).congr (hold hj).1
    · exact hserves
  · intro x j hj hx hcontainer
    rcases hjoins.declares_iff.1 hj with hj | ⟨rfl, rfl⟩
    · rw [(hjoins.old j hj.1).1] at hcontainer
      rw [Module.attr?, (hold hj).1]
      exact h.marked x j hj hx hcontainer
    · exact (hroutine hx).2
  · intro x j hj hx
    rcases hjoins.declares_iff.1 hj with hj | ⟨rfl, rfl⟩
    · obtain ⟨e, he, hops⟩ := h.routines x j hj hx
      have helt := (Module.owner?_of_entryBlock? hlinked he).1
      refine ⟨e, (hold hj).2.trans he, fun o ho => ?_⟩
      rw [hext.blocks e helt (h.toStaged.entry_ne he)] at ho
      rw [Module.kind, hext.ops o (hlinked.ops_lt ho)]
      exact hops o ho
    · exact (hroutine hx).1
  · refine h.ended.of_extends hlinked hext ?_ ?_
    · rintro b hb (⟨x, j, hj, hx, he⟩ | rfl)
      · exact .inl ⟨x, j, hjoins.declares_iff.2 (.inl hj), hx, (hold hj).2.trans he⟩
      · obtain ⟨-, f, hf, -⟩ := hb
        rw [(Module.owner?_body hlinked h.top.body).2] at hf
        cases hf
    · intro b hge hb
      rcases hnew b hge hb with ⟨hx, he⟩ | hended
      · exact .inl ⟨name, id, hjoins.declares_iff.2 (.inr ⟨rfl, rfl⟩), hx, he⟩
      · exact .inr hended

/-- The body gains some names, by symbols that serve. -/
structure Gains (env : Env) (containers : List OpId) (m n : Module) (names : String → Prop) :
    Prop where
  splitting : Splitting env containers IsRoutine n
  grown : Extends (· = ⟨0⟩) m n
  declared : ∀ x, n.Declared x ↔ m.Declared x ∨ names x

namespace Gains

variable {names more : String → Prop}

/-- The body gains the names that it has. -/
theorem refl (h : Splitting env containers IsRoutine m) (hnames : ∀ x, names x → m.Declared x) :
    Gains env containers m m names :=
  ⟨h, .refl _ _, fun x => ⟨.inl, fun hx => hx.elim id (hnames x)⟩⟩

/-- The body gains some names, and then some more. -/
theorem trans (h : Gains env containers m n names) (k : Gains env containers n p more) :
    Gains env containers m p fun x => names x ∨ more x :=
  ⟨k.splitting, h.grown.trans k.grown, fun x => by rw [k.declared, h.declared, or_assoc]⟩

/-- The names that are gained, said in other words. -/
theorem congr (h : Gains env containers m n names) (hmore : ∀ x, names x ↔ more x) :
    Gains env containers m n more :=
  ⟨h.splitting, h.grown, fun x => by rw [h.declared, hmore]⟩

end Gains

/-! ## Declarations -/

/-- A new symbol without operands keeps a module well-typed. -/
theorem wellTyped_addSymbol (h : m.WellTyped env) {b : BlockId} (hb : b.index < m.blocks.size)
    {spec : Module.OpSpec} (hoperands : spec.operands = []) {location : Location} {k : Nat}
    (htyped : (m.addOp spec location b (some k)).OpTyped env ⟨m.ops.size⟩) :
    (m.addOp spec location b (some k)).WellTyped env := by
  refine h.of_insert (h.toLinked.addOp spec location (by simp [hoperands]) hb (some k))
    ((Extends.refl (· = b) m).addOp spec location (.inl rfl) (some k)) (m.size_ops_addOp _ _ _ _)
    (m.size_blocks_addOp _ _ _ _) hb (List.take_append_drop k _).symm ?_ ?_ htyped
  · rw [Module.block_addOp, if_pos ⟨rfl, hb⟩]
    rfl
  · rw [Module.op_addOp, if_pos rfl]
    simp [Module.OpSpec.toOp, hoperands]

/-- A declaration is put at a place of the body.

**Proof sketch.** The operation is added to the body at the place of the cursor and joins the
symbols there (`Joins.of_extends`); `Splitting.of_joins` keeps the invariant, and the cursor moves
one place on. -/
theorem exists_declaration {b : Builder} (h : Splitting env containers IsRoutine b.ir) {k : Nat}
    (hp : b.point = some ⟨⟨0⟩, some k⟩) {spec : Module.OpSpec} {name : String}
    (hoperands : spec.operands = []) (hsymbol : spec.kind.isSymbol = true)
    (hcontainer : spec.kind.isContainer = false)
    (hname : spec.attrs.get? AttrName.symName = some (.str name))
    (htyped : (b.ir.addOp spec b.location ⟨0⟩ (some k)).OpTyped env ⟨b.ir.ops.size⟩)
    (hserves : Serves (b.ir.addOp spec b.location ⟨0⟩ (some k)) name ⟨b.ir.ops.size⟩)
    (hroutine : ¬IsRoutine name) (hfree : ¬b.ir.Declared name) :
    ∃ c, (Build.op spec).run b = .ok ⟨b.ir.ops.size⟩ c ∧
      c.point = some ⟨⟨0⟩, some (k + 1)⟩ ∧ Gains env containers b.ir c.ir (· = name) := by
  obtain ⟨ir, point, location⟩ := b
  simp only at h hp htyped hserves hfree
  subst hp
  obtain ⟨hlt, -⟩ := Module.owner?_body h.typed.toLinked h.top.body
  have hop := ir.op_addOp spec location ⟨0⟩ (some k) ⟨ir.ops.size⟩
  rw [if_pos rfl] at hop
  have hext : Extends (· = ⟨0⟩) ir (ir.addOp spec location ⟨0⟩ (some k)) :=
    (Extends.refl (· = ⟨0⟩) ir).addOp spec location (.inl rfl) (some k)
  have hjoins : Joins ir (ir.addOp spec location ⟨0⟩ (some k)) ⟨ir.ops.size⟩ name := by
    refine .of_extends hext h.typed.toLinked (some k) ?_ ?_ ?_ ?_
    · rw [Module.block_addOp, if_pos ⟨rfl, hlt⟩]
    · rw [Module.kind, hop]
      exact hsymbol
    · rw [Module.kind, hop]
      exact hcontainer
    · rw [Module.symName?, Module.attr?, hop]
      simp [Module.OpSpec.toOp, hname, Attr.str?]
  have hsplitting := h.of_joins (wellTyped_addSymbol h.typed hlt hoperands htyped) hjoins hext
    hfree hserves (fun hname => absurd hname hroutine) fun b hge hb => by
      have hblt := hb.1
      rw [Module.size_blocks_addOp] at hblt
      omega
  exact ⟨_, rfl, rfl, hsplitting, hext, fun x => hjoins.declared_iff⟩

/-- Nothing around the body owns a new operation of it. -/
theorem parentOp?_addOp (h : m.WellTyped env) (hm : m.TopLevel) (spec : Module.OpSpec)
    (location : Location) (index : Option Nat) :
    (m.addOp spec location ⟨0⟩ index).parentOp? ⟨m.ops.size⟩ = none := by
  obtain ⟨hlt, howner⟩ := Module.owner?_body h.toLinked hm.body
  rw [← howner]
  refine h.parentOp?_new ((Extends.refl (· = ⟨0⟩) m).addOp spec location (.inl rfl) index) hlt ?_
  rw [Module.op_addOp, if_pos rfl]
  rfl

/-- A global of the ABI is declared.

**Proof sketch.** `exists_declaration` for a global: its name, its type and its initial value are
read off the operation that was added, and it is no function for code. -/
theorem exists_global {b : Builder} (h : Splitting env containers IsRoutine b.ir) {k : Nat}
    (hp : b.point = some ⟨⟨0⟩, some k⟩) (g : Global) (hfree : ¬b.ir.Declared g.name) :
    ∃ c, (Build.Llvm.global g.name g.ty "private" g.initial?).run b = .ok ⟨b.ir.ops.size⟩ c ∧
      c.point = some ⟨⟨0⟩, some (k + 1)⟩ ∧ Gains env containers b.ir c.ir (· = g.name) := by
  have hop := fun spec => b.ir.op_addOp spec b.location ⟨0⟩ (some k) ⟨b.ir.ops.size⟩
  simp only [if_pos] at hop
  refine exists_declaration h hp rfl rfl rfl ?_ (@Module.OpTyped.global _ _ _ g.name g.ty ?_ ?_ ?_
    ?_ ?_ ?_ ?_ (parentOp?_addOp h.typed h.top _ _ _)) ⟨fun s hs => ?_, fun _ _ => ?_⟩ ?_ hfree
  · cases g <;> rfl
  · rw [Module.kind, hop]
    rfl
  · rw [hop]
    rfl
  · rw [hop]
    rfl
  · rw [hop]
    rfl
  · rw [Module.symName?, Module.attr?, hop]
    cases g <;> rfl
  · rw [Module.attr?, hop]
    cases g <;> rfl
  · intro a ha
    rw [Module.attr?, hop] at ha
    cases g <;> cases ha <;> rfl
  · rw [abiSignature?_global] at hs
    cases hs
  · rw [Module.kind, hop]
    rfl
  · exact not_or.2 ⟨g.name_ne.2.1, g.name_ne.2.2.1⟩

/-- The globals of a list that are missing are declared.

**Proof sketch.** Induction on the globals: one that is declared is passed over, any other is
declared (`exists_global`), and the rest goes on behind it. -/
theorem exists_declareGlobals {b : Builder} (h : Splitting env containers IsRoutine b.ir) {k : Nat}
    (hp : b.point = some ⟨⟨0⟩, some k⟩) (gs : List Global) :
    ∃ c, (declareGlobals gs).run b = .ok () c ∧ (∃ l, c.point = some ⟨⟨0⟩, some l⟩) ∧
      Gains env containers b.ir c.ir fun x => ∃ g ∈ gs, x = g.name := by
  induction gs generalizing b k with
  | nil => exact ⟨b, rfl, ⟨k, hp⟩, .refl h (by simp)⟩
  | cons g gs ih =>
    by_cases hdeclared : b.ir.Declared g.name
    · have hsome := h.top.isSome_lookupTop?_iff.2 hdeclared
      have hsame : Gains env containers b.ir b.ir (· = g.name) := .refl h fun _ hx => hx ▸ hdeclared
      obtain ⟨c, hrun, hl, hgains⟩ := ih h hp
      refine ⟨c, ?_, hl, (hsame.trans hgains).congr ?_⟩
      · simp only [declareGlobals, EStateM.run_bind, Build.ir, EStateM.run_get, EStateM.run_pure]
        rw [if_neg (by simp [Option.isNone_iff_eq_none, ← Option.not_isSome_iff_eq_none, hsome])]
        exact hrun
      · simp
    · have hnone := h.top.lookupTop?_eq_none_iff.2 hdeclared
      obtain ⟨c, hrun, hl, hgains⟩ := exists_global h hp g hdeclared
      obtain ⟨d, hrun', hl', hgains'⟩ := ih hgains.splitting hl
      refine ⟨d, ?_, hl', (hgains.trans hgains').congr (by simp)⟩
      simp only [declareGlobals, EStateM.run_bind, Build.ir, EStateM.run_get, EStateM.run_pure]
      rw [if_pos (by simp [hnone])]
      simp only [EStateM.run_bind, hrun, hrun']

/-- The return function is declared.

**Proof sketch.** `exists_declaration` for a function without a body: its name, kind and
signature are read off the operation that was added, and the signature is the one the ABI gives
the return function. -/
theorem exists_returnDeclaration {b : Builder} (h : Splitting env containers IsRoutine b.ir)
    {k : Nat} (hp : b.point = some ⟨⟨0⟩, some k⟩) (hfree : ¬b.ir.Declared returnName) :
    ∃ c made, (Build.Llvm.func returnName returnSignature "external" false).run b = .ok made c ∧
      Gains env containers b.ir c.ir (· = returnName) := by
  have hop := b.ir.op_addOp (functionSpec returnName returnSignature "external") b.location ⟨0⟩
    (some k) ⟨b.ir.ops.size⟩
  rw [if_pos rfl] at hop
  have hname : (b.ir.addOp (functionSpec returnName returnSignature "external") b.location ⟨0⟩
      (some k)).symName? ⟨b.ir.ops.size⟩ = some returnName := by
    rw [Module.symName?, Module.attr?, hop]
    rfl
  have hsignature : (b.ir.addOp (functionSpec returnName returnSignature "external") b.location ⟨0⟩
      (some k)).signature? ⟨b.ir.ops.size⟩ = some returnSignature := by
    rw [Module.signature?, Module.attr?, hop]
    rfl
  have hkind : (b.ir.addOp (functionSpec returnName returnSignature "external") b.location ⟨0⟩
      (some k)).kind ⟨b.ir.ops.size⟩ = .llvm .func := by
    rw [Module.kind, hop]
    rfl
  have hnone := parentOp?_addOp h.typed h.top (functionSpec returnName returnSignature "external")
    b.location (some k)
  have htyped : (b.ir.addOp (functionSpec returnName returnSignature "external") b.location ⟨0⟩
      (some k)).OpTyped env ⟨b.ir.ops.size⟩ := by
    refine .function (r := ⟨b.ir.regions.size⟩) (by rw [hkind]; rfl) (by rw [hop]; rfl)
      (by rw [hop]; rfl) (by rw [hop]; rfl) hname hsignature (fun e he => ?_) fun c hc => ?_
    · have hempty := b.ir.blocks_region_addOp_of_le (functionSpec returnName returnSignature
        "external") b.location ⟨0⟩ (some k) (r := ⟨b.ir.regions.size⟩) (Nat.le_refl _)
      rw [hempty] at he
      cases he
    · rw [hnone] at hc
      cases hc
  have hserves : Serves (b.ir.addOp (functionSpec returnName returnSignature "external") b.location
      ⟨0⟩ (some k)) returnName ⟨b.ir.ops.size⟩ :=
    ⟨fun s hs => ⟨by rw [hkind]; rfl, hsignature.trans hs⟩,
      fun g hg => absurd hg.symm g.name_ne.2.2.2⟩
  obtain ⟨c, hrun, -, hgains⟩ := exists_declaration h hp rfl rfl rfl rfl htyped hserves
    (by simp [IsRoutine, returnName, deployName, runtimeName]) hfree
  refine ⟨c, (⟨b.ir.ops.size⟩, none), ?_, hgains⟩
  simp only [functionSpec] at hrun
  simp only [Build.Llvm.func, EStateM.run_bind, hrun]
  rfl

/-- Every symbol that the ABI declares and the body lacks is declared.

**Proof sketch.** The cursor starts in front of the body and the globals are declared there
(`exists_declareGlobals`).  Behind them the return function is declared, unless something has its
name. -/
theorem exists_declareSymbols (h : Splitting env containers IsRoutine m) :
    ∃ n, declareSymbols.run m = .ok () n ∧ Gains env containers m n fun x =>
      (∃ g : Global, x = g.name) ∨ x = returnName := by
  have hstart : ({ Builder.new m with location := m.location } : Builder) =
      ⟨m, some ⟨⟨0⟩, none⟩, m.location⟩ := by rw [Builder.new, Builder.atEnd, h.top.bodyBlock_eq]
  obtain ⟨c, hrun, ⟨k, hk⟩, hgains⟩ := exists_declareGlobals
    (b := ⟨m, some ⟨⟨0⟩, some 0⟩, m.location⟩) h rfl Global.all
  have hall : ∀ x, (∃ g ∈ Global.all, x = g.name) ↔ ∃ g : Global, x = g.name := fun x =>
    exists_congr fun g => and_iff_right (by cases g <;> decide)
  rw [declareSymbols, run_build]
  simp only [hstart, EStateM.run_bind, run_liftM, Build.ir, EStateM.run_get, EStateM.run_pure,
    h.top.bodyBlock_eq, Build.toStart, EStateM.run_modify, hrun]
  by_cases hdeclared : c.ir.Declared returnName
  · have hsome := hgains.splitting.top.isSome_lookupTop?_iff.2 hdeclared
    have hsame : Gains env containers c.ir c.ir (· = returnName) :=
      .refl hgains.splitting fun _ hx => hx ▸ hdeclared
    rw [if_neg (by simp [← Option.not_isSome_iff_eq_none, hsome])]
    exact ⟨c.ir, rfl, (hgains.trans hsame).congr fun x => by rw [hall]⟩
  · have hnone := hgains.splitting.top.lookupTop?_eq_none_iff.2 hdeclared
    obtain ⟨d, made, hrun', hgains'⟩ := exists_returnDeclaration hgains.splitting hk hdeclared
    rw [if_pos (by simp [hnone])]
    refine ⟨d.ir, ?_, (hgains.trans hgains').congr fun x => by rw [hall]⟩
    simp only [EStateM.run_bind, run_liftM, hrun', EStateM.run_pure]

/-! ## Functions for code -/

/-- The entry function joins the body. -/
theorem gains_buildEntry (h : Splitting env containers IsRoutine m)
    (hglobals : ∀ g : Global, env.symbols g.name) (hdeploy : env.symbols deployName)
    (hruntime : env.symbols runtimeName) (hfree : ¬m.Declared entryName) (location : Location) :
    ∃ id n, (buildEntry location).run m = .ok id n ∧
      Gains env containers m n (· = entryName) := by
  obtain ⟨n, hrun, htyped, hjoins, hext, hended⟩ :=
    exists_buildEntry h.typed h.top hglobals hdeploy hruntime location
  have hroutine : ¬IsRoutine entryName := by simp [IsRoutine, entryName, deployName, runtimeName]
  have hserves : Serves n entryName ⟨m.ops.size⟩ := by
    refine ⟨fun s hs => ?_, fun g hg => absurd hg.symm g.name_ne.1⟩
    have hnone : abiSignature? entryName = none := by decide
    rw [hnone] at hs
    cases hs
  have hsplitting := h.of_joins htyped hjoins hext hfree hserves
    (fun hname => absurd hname hroutine) fun b hge hb => .inr (hended b hge hb.1)
  exact ⟨_, n, hrun, hsplitting, hext, fun x => hjoins.declared_iff⟩

/-- The module with a new function for the code of a context, at the end of the body. -/
def withRoutine (m : Module) (name : String) (context : CodeContext) : Module :=
  (m.addScope (functionSpec name ⟨[], []⟩ "private") m.location m.bodyBlock []).setAttr
    ⟨m.ops.size⟩ AttrName.isRuntime (.bool (decide (context = .runtime)))

section Routine

variable {name : String} (context : CodeContext)

/-- The function for the code of a context is made if nothing in the body has its name. -/
theorem run_codeFunction_of_none (hnone : m.lookupTop? name = none) :
    (codeFunction name context).run m = .ok ⟨m.blocks.size⟩ (withRoutine m name context) := by
  have hfunc : (Build.Llvm.func name ⟨[], []⟩ "private" true).run
      { Builder.new m with location := m.location } = .ok (⟨m.ops.size⟩, some ⟨m.blocks.size⟩)
        ⟨m.addScope (functionSpec name ⟨[], []⟩ "private") m.location m.bodyBlock [],
          some ⟨m.bodyBlock, none⟩, m.location⟩ :=
    run_func rfl _ _ _
  rw [codeFunction, Outcome.run_get_bind, hnone]
  simp only [EStateM.run_bind, run_build, run_liftM, hfunc, Transform.expect, EStateM.run_pure,
    EStateM.run_modify]
  rfl

variable (m name)

/-- What was declared is the private function of that name, marked with its context. -/
theorem op_withRoutine : (withRoutine m name context).op ⟨m.ops.size⟩ =
    { (functionSpec name ⟨[], []⟩ "private").toOp m.location m.values.size m.regions.size
        (some m.bodyBlock) with
      attrs := (functionSpec name ⟨[], []⟩ "private").attrs.set AttrName.isRuntime
        (.bool (decide (context = .runtime))) } := by
  refine (Module.op_modifyOp_self _ _ (by simp)).trans ?_
  rw [Module.op_addScope, if_pos rfl]
  rfl

/-- The new function is entered at the new block. -/
theorem entryBlock?_withRoutine :
    (withRoutine m name context).entryBlock? ⟨m.ops.size⟩ = some ⟨m.blocks.size⟩ := by
  have hregion : (withRoutine m name context).region ⟨m.regions.size⟩ =
      ⟨[⟨m.blocks.size⟩], some ⟨m.ops.size⟩⟩ := m.region_addScope_new _ _ _ _ Nat.zero_lt_one
  rw [Module.entryBlock?, op_withRoutine]
  exact congrArg (fun r : Region => r.blocks.head?) hregion

/-- The new block is empty. -/
theorem ops_block_withRoutine :
    ((withRoutine m name context).block ⟨m.blocks.size⟩).ops = [] := by
  rw [withRoutine, Module.setAttr, Module.block_modifyOp, Module.block_addScope, if_pos rfl]

/-- Only the body gets something new. -/
theorem extends_withRoutine : Extends (· = m.bodyBlock) m (withRoutine m name context) := by
  have hmade := (Extends.refl (· = m.bodyBlock) m).addScope
    (functionSpec name ⟨[], []⟩ "private") m.location (.inl rfl) []
  exact hmade.modifyOp (Nat.le_refl _) (fun _ => rfl) (fun _ => rfl) fun _ => rfl

/-- The new function stands at the end of the body. -/
theorem ops_bodyBlock_withRoutine (hbody : m.bodyBlock.index < m.blocks.size) :
    ((withRoutine m name context).block m.bodyBlock).ops =
      (m.block m.bodyBlock).ops ++ [⟨m.ops.size⟩] := by
  have hne : m.bodyBlock ≠ ⟨m.blocks.size⟩ := by
    rw [Ne, ← BlockId.index_eq_iff]
    exact Nat.ne_of_lt hbody
  rw [withRoutine, Module.setAttr, Module.block_modifyOp, Module.block_addScope, if_neg hne,
    if_pos ⟨rfl, hbody⟩]

end Routine

/-- The functions for code take and give nothing. -/
theorem abiSignature?_routine {name : String} (h : IsRoutine name) :
    abiSignature? name = some ⟨[], []⟩ := by
  rcases h with rfl | rfl <;> decide

/-- The function for the code of a context is what its name is taken for. -/
theorem serves_withRoutine (m : Module) {name : String} (hname : IsRoutine name)
    (context : CodeContext) : Serves (withRoutine m name context) name ⟨m.ops.size⟩ := by
  refine ⟨fun s hs => ?_, fun g hg => ?_⟩
  · rw [abiSignature?_routine hname] at hs
    obtain rfl := Option.some.inj hs
    rw [Module.kind, Module.signature?, Module.attr?, op_withRoutine]
    exact ⟨rfl, rfl⟩
  · rw [hg] at hname
    exact absurd hname (not_or.2 ⟨g.name_ne.2.1, g.name_ne.2.2.1⟩)

/-- The function for the code of a context joins the body. -/
theorem joins_withRoutine (h : Staged env containers m) (name : String) (context : CodeContext) :
    Joins m (withRoutine m name context) ⟨m.ops.size⟩ name := by
  obtain ⟨hlt, -⟩ := Module.owner?_body h.typed.toLinked h.top.body
  have hext := extends_withRoutine m name context
  refine .of_extends hext h.typed.toLinked none ?_ ?_ ?_ ?_
  · have hlisted := ops_bodyBlock_withRoutine m name context
    rw [h.top.bodyBlock_eq] at hlisted
    exact hlisted hlt
  · rw [Module.kind, op_withRoutine]
    rfl
  · rw [Module.kind, op_withRoutine]
    rfl
  · rw [Module.symName?, Module.attr?, op_withRoutine]
    rfl

/-- The module with the function for the code of a context is well-typed. -/
theorem wellTyped_withRoutine (h : Staged env containers m) (name : String)
    (context : CodeContext) : (withRoutine m name context).WellTyped env := by
  rw [withRoutine, h.top.bodyBlock_eq]
  exact (wellTyped_addFunction h.typed h.top name ⟨[], []⟩ (by simp) _ _).setAttr
    (b := ⟨0⟩) (by rw [Module.op_addScope, if_pos rfl]; rfl)
    (by rw [Module.kind, Module.op_addScope, if_pos rfl]; rfl) (by decide) (by decide) _

/-- The function for the code of a context is there, or joins the body.

**Proof sketch.** By whether the name is declared.  If so, it belongs to a function with an entry
block; if not, the function joins the body with an empty block (`Splitting.of_joins`,
`joins_withRoutine`). -/
theorem exists_codeFunction (h : Splitting env containers IsRoutine m) {name : String}
    (hname : IsRoutine name) (context : CodeContext) :
    ∃ e n, (codeFunction name context).run m = .ok e n ∧
      Gains env containers m n (· = name) := by
  by_cases hdeclared : m.Declared name
  · obtain ⟨f, hf⟩ := hdeclared
    obtain ⟨e, he, -⟩ := h.routines name f hf hname
    refine ⟨e, m, ?_, .refl h ?_⟩
    · rw [codeFunction, Outcome.run_get_bind, h.top.lookupTop?_eq_some_iff.2 hf]
      simp only [Transform.expect, he]
      rfl
    · rintro x rfl
      exact ⟨f, hf⟩
  · have hrun := run_codeFunction_of_none context (h.top.lookupTop?_eq_none_iff.2 hdeclared)
    have hext := extends_withRoutine m name context
    rw [h.top.bodyBlock_eq] at hext
    have hjoins := joins_withRoutine h.toStaged name context
    refine ⟨_, _, hrun, h.of_joins (wellTyped_withRoutine h.toStaged name context) hjoins hext
      hdeclared (serves_withRoutine m hname context) (fun _ => ?_) ?_, hext,
      fun x => hjoins.declared_iff⟩
    · refine ⟨⟨_, entryBlock?_withRoutine m name context, fun o ho => ?_⟩,
        decide (context = .runtime), by rw [Module.attr?, op_withRoutine]; rfl⟩
      rw [ops_block_withRoutine] at ho
      cases ho
    · intro b hge hb
      have hblt : b.index < m.blocks.size + 1 := by
        have hblt := hb.1
        simpa [withRoutine, Module.setAttr] using hblt
      obtain rfl : b = ⟨m.blocks.size⟩ := by
        rw [← BlockId.index_eq_iff]
        simp only
        omega
      exact .inl ⟨hname, entryBlock?_withRoutine m name context⟩

/-- A function without a terminator is ended.

**Proof sketch.** A cursor at the end of the block writes a constant and a return that reads it,
and the code ends the block (`Cursor.Ends.ended`).  The block had no terminator, so the check in
front lets the code be written. -/
theorem exists_terminate (h : m.WellTyped env) {f : OpId} {e : BlockId}
    (hentry : m.entryBlock? f = some e)
    (hops : ∀ o ∈ (m.block e).ops, (m.kind o).isTerminator = false) (hf : env.returning f) :
    ∃ n, (terminate f).run m = .ok () n ∧ n.WellTyped env ∧ Extends (· = e) m n ∧
      n.blocks.size = m.blocks.size ∧ n.Ended e ∧ ∀ o : OpId, m.ops.size ≤ o.index →
        o.index < n.ops.size → (n.kind o).isSymbol = false := by
  obtain ⟨hlt, howner⟩ := Module.owner?_of_entryBlock? h.toLinked hentry
  let c : Cursor env := .atEnd ⟨m, none, (m.op f).location⟩ h e hlt
  have hends : Cursor.Ends (do
      let zero ← Build.constant 0 Ty.word
      let _ ← Build.solReturn zero zero : Lower Unit) c (.sol .ret) := by
    refine (Cursor.writes_integer rfl 0 256).liftM.bind_ends fun zero d _ hd hzero => ?_
    have howner' : d.ir.owner? d.block = some f := by
      rw [hd.block]
      exact (Module.WellTyped.owner?_of_extends c.typed.toLinked hd.extends_ir hlt).trans howner
    exact (Cursor.ends_solReturn hzero hzero howner' hf).liftM.bind_pure _
  obtain ⟨_, d, hrun, hext, hsize, hended, hnew⟩ := hends.ended rfl hops rfl
  refine ⟨d.ir, ?_, d.typed, hext, hsize, hended, hnew⟩
  have hlast : ¬((m.block e).ops.getLast?.map fun o => (m.kind o).isTerminator) = some true := by
    intro hlast
    obtain ⟨o, ho, hterminator⟩ := Option.map_eq_some_iff.1 hlast
    rw [hops o (List.mem_of_getLast? ho)] at hterminator
    cases hterminator
  rw [terminate, Outcome.run_get_bind, hentry]
  simp only [if_neg hlast, run_build]
  have hrun : (do
      let zero ← Build.constant 0 Ty.word
      let _ ← Build.solReturn zero zero : Lower Unit).run
      ⟨m, some ⟨e, none⟩, (m.op f).location⟩ = .ok _ d.builder := hrun
  simp only [Builder.atEnd, hrun]
  rfl

end ContractIR.EraVM
