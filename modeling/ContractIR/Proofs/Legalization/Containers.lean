import ContractIR.Proofs.Legalization.Building
import ContractIR.Proofs.Legalization.Persistence
import ContractIR.Proofs.Lowering.Verified

/-!
# Functions leave their containers

In a lowered module the body of a contract holds functions and nothing else.  So splitting the
containers moves no code: the module only grows, in the first block of its body and at the ends of
functions that contracts may be mistaken for.  Hoisting then moves every function to that block and
drops the containers.  Neither of them touches the inside of a function.

## Main definitions

* `ContractIR.Hoisting` — a function stands in its container, or already in the body.
* `ContractIR.Hoisted` — a function stands in the body.

## Main results

* `ContractIR.EraVM.extends_lowerContainers` — splitting the containers lets the module grow.
* `ContractIR.EraVM.hoisted_of_hoist` — after hoisting, every function stands in the body.
-/

set_option autoImplicit false

namespace ContractIR

/-! ## Containers without code -/

/-- The symbol that a name means in the body stands in a block of the body. -/
theorem Module.mem_of_lookupTop? {m : Module} {name : String} {id : OpId} {b : BlockId}
    (hbody : m.region Module.body = ⟨[b], none⟩) (h : m.lookupTop? name = some id) :
    id ∈ (m.block b).ops := by
  rw [lookupTop?, symbolIn?, Option.map_eq_some_iff] at h
  obtain ⟨⟨id', name'⟩, hfind, rfl⟩ := h
  have hmem := List.mem_of_find?_eq_some hfind
  rw [symbolsIn, hbody] at hmem
  simp only [List.flatMap_cons, List.flatMap_nil, List.append_nil, List.mem_filterMap] at hmem
  obtain ⟨o, ho, heq⟩ := hmem
  split at heq
  · obtain ⟨_, _, hpair⟩ := Option.map_eq_some_iff.1 heq
    obtain rfl := (Prod.mk.inj hpair).1
    exact ho
  · cases heq

namespace EraVM

/-- Moving the code of a block that has none changes nothing. -/
theorem eq_of_run_moveCode {m n : Module} {source target : BlockId} {location : Location}
    {a : Unit} (hcode : ∀ o ∈ (m.block source).ops, isCode m o = false)
    (h : (moveCode source target location).run m = .ok a n) : n = m := by
  have hselected : (m.block source).ops.filter (isCode m) = [] :=
    List.filter_eq_nil_iff.2 fun o ho => Bool.eq_false_iff.1 (hcode o ho)
  rw [run_moveCode_eq_ok h, Module.moveWhere, hselected, List.foldl_nil]

end EraVM

/-- The body of a contract holds functions only. -/
theorem ContractSite.In.isFunction {c : ContractSite} {m : Module} (h : c.In m) {o : OpId}
    (ho : o ∈ (m.block c.body).ops) : m.kind o = .func .func := by
  rw [h.block] at ho
  obtain ⟨s, hs, rfl⟩ := List.mem_map.1 ho
  exact (h.functions s hs).1.kind_eq

/-- A contract is entered at its body. -/
theorem ContractSite.In.entryBlock?_eq {c : ContractSite} {m : Module} (h : c.In m) :
    m.entryBlock? c.id = some c.body := by
  rw [Module.entryBlock?, h.op]
  simp [Module.OpSpec.toOp, Module.contractSpec, h.region]

/-! ## Splitting -/

namespace EraVM

section Splitting

variable {source : Source} {contracts : List Contract} {sites : List ContractSite}
  {m p n : Module}

/-- The body of a module that grew out of a lowered one. -/
theorem body_of_extends {B : BlockId → Prop} (hlayout : Layout source contracts sites m)
    (hext : Module.Extends B m p) : p.region Module.body = ⟨[⟨0⟩], none⟩ := by
  have hlt : Module.body.index < m.regions.size := Module.index_lt_of_region_ne fun hd => by
    have hbody := hlayout.body
    rw [hd] at hbody
    cases congrArg Region.blocks hbody
  rw [hext.regions _ hlt, hlayout.body]

/-- Moving the code of a contract changes nothing, because it has none. -/
theorem run_moveCode_contract {c : ContractSite} (hin : c.In p) {target : BlockId}
    {location : Location} {a : Unit} (h : (moveCode c.body target location).run p = .ok a n) :
    n = p := by
  refine eq_of_run_moveCode (fun o ho => ?_) h
  rw [isCode, hin.isFunction ho]
  rfl

/-- There are no runtime objects in a contract. -/
theorem run_runtimeObjects_contract {c : ContractSite} (hin : c.In p) {objects : List OpId}
    (h : (runtimeObjects (p.block c.body).ops).run p = .ok objects n) : objects = [] := by
  obtain ⟨-, rfl, -⟩ := run_runtimeObjects_eq_ok h
  refine List.filter_eq_nil_iff.2 fun o ho => ?_
  rw [hin.isFunction ho]
  exact Bool.false_ne_true

/-- Splitting a contract lets the body grow. -/
theorem extends_splitRuntime (hlayout : Layout source contracts sites m)
    (hext : Module.Extends (· = ⟨0⟩) m p) {c : ContractSite} (hc : c ∈ sites)
    {location : Location} {a : Unit} (h : (splitRuntime c.body location).run p = .ok a n) :
    Module.Extends (· = ⟨0⟩) m n := by
  obtain ⟨target, q, hcode, hmove⟩ := Outcome.run_bind_eq_ok.1 h
  have hq := hext.trans (extends_codeFunction (body_of_extends hlayout hext) rfl hcode)
  rw [run_moveCode_contract ((hlayout.sites c hc).mono hq) hmove]
  exact hq

/-- Splitting a deployable contract lets the body grow. -/
theorem extends_splitDeployable (hlayout : Layout source contracts sites m)
    (hext : Module.Extends (· = ⟨0⟩) m p) {c : ContractSite} (hc : c ∈ sites) {name : String}
    {location : Location} {a : Unit}
    (h : (splitDeployable name c.body location).run p = .ok a n) :
    Module.Extends (· = ⟨0⟩) m n := by
  obtain ⟨-, objects, f, q₁, deployBody, q₂, q₃, runtimeBody, q₄, hobjects, hentry, hdeploy, hmove,
    hruntime, hrest⟩ := steps_of_splitDeployable h
  have hin := (hlayout.sites c hc).mono hext
  obtain rfl := run_runtimeObjects_contract hin hobjects
  have hext₁ := hext.trans (extends_buildEntry (body_of_extends hlayout hext) rfl hentry)
  have hext₂ := hext₁.trans (extends_codeFunction (body_of_extends hlayout hext₁) rfl hdeploy)
  obtain rfl := run_moveCode_contract ((hlayout.sites c hc).mono hext₂) hmove
  have hext₄ := hext₂.trans (extends_codeFunction (body_of_extends hlayout hext₂) rfl hruntime)
  cases hrest
  exact hext₄

/-- **Splitting contracts lets the body grow.** -/
theorem extends_splitContainers (hlayout : Layout source contracts sites m) {ids : List OpId}
    (hids : ∀ id ∈ ids, ∃ c ∈ sites, id = c.id) (hext : Module.Extends (· = ⟨0⟩) m p) {a : Unit}
    (h : (splitContainers ids).run p = .ok a n) : Module.Extends (· = ⟨0⟩) m n := by
  induction ids generalizing p with
  | nil =>
    cases h
    exact hext
  | cons id ids ih =>
    obtain ⟨c, hc, rfl⟩ := hids id (by simp)
    obtain ⟨name, body, q, -, hbody, hsplit, hrest⟩ := steps_of_splitContainers h
    obtain rfl := Option.some.inj
      (((hlayout.sites c hc).mono hext).entryBlock?_eq.symm.trans hbody)
    have hq : Module.Extends (· = ⟨0⟩) m q := by
      rcases hsplit with ⟨-, hsplit⟩ | ⟨-, hsplit⟩
      · exact extends_splitRuntime hlayout hext hc hsplit
      · exact extends_splitDeployable hlayout hext hc hsplit
    exact ih (fun j hj => hids j (by simp [hj])) hq hrest

/-- A function of a lowered module does not stand in the body. -/
theorem function_notMem_top (hlayout : Layout source contracts sites m) {s : FunctionSite}
    {around : BlockId} (hs : s.In m around) : s.id ∉ (m.block ⟨0⟩).ops := by
  intro hmem
  rw [hlayout.top] at hmem
  obtain ⟨c, hc, heq⟩ := List.mem_map.1 hmem
  have hkind := hs.kind_eq
  rw [← heq, Module.kind, (hlayout.sites c hc).op] at hkind
  cases hkind

/-- Only a function itself is entered at its block. -/
theorem eq_of_entryBlock? {s : FunctionSite} (hs : s.Isolated p) {id : OpId}
    (h : p.entryBlock? id = some s.entry) : id = s.id := by
  rw [Module.entryBlock?, Option.bind_eq_some_iff] at h
  obtain ⟨r, hr, hentry⟩ := h
  by_contra hne
  by_cases hregion : r = s.region
  · exact hs.regions id hne (hregion ▸ List.mem_of_mem_head? hr)
  · exact hs.blocks r hregion (List.mem_of_mem_head? hentry)

/-- Ending the function of a name in the body does not touch a function in a contract. -/
theorem extends_terminateNamed (hlayout : Layout source contracts sites m) {s : FunctionSite}
    {around : BlockId} (hs : s.In m around) (hext : Module.Extends (· ≠ s.entry) m p)
    {name : String} {a : Unit} (h : (terminateNamed name).run p = .ok a n) :
    Module.Extends (· ≠ s.entry) m n := by
  rcases steps_of_terminateNamed h with rfl | ⟨function, hname, h⟩
  · exact hext
  · refine hext.trans (extends_terminate (fun entry hentry => ?_) h)
    rintro rfl
    have hisolated := (hs.persists.of_extends hext (fun hne => hne rfl)).isolated
    obtain rfl := eq_of_entryBlock? hisolated hentry
    have hmem := Module.mem_of_lookupTop? (body_of_extends hlayout hext) hname
    rcases hext.new_members _ _ hmem with hold | ⟨hnew, _⟩
    · exact function_notMem_top hlayout hs hold
    · exact Nat.not_lt.2 hnew hs.id_lt

/-- **Splitting the containers lets the module grow**, outside of the functions of its contracts.

**Proof sketch.** The steps one after the other: declaring and splitting grow the module in the
body only, ending the two functions for code grows it outside of the function. -/
theorem extends_lowerContainers (hlayout : Layout source contracts sites m) {s : FunctionSite}
    {around : BlockId} (hs : s.In m around) (hpos : 0 < s.entry.index) {a : Unit}
    (h : lowerContainers.run m = .ok a n) : Module.Extends (· ≠ s.entry) m n := by
  have hne : (⟨0⟩ : BlockId) ≠ s.entry := fun hc => Nat.ne_of_lt hpos (congrArg BlockId.index hc)
  rcases (steps_of_lowerContainers h).2 with
    ⟨-, rfl⟩ | ⟨q, p₁, p₂, hdeclare, hsplit, hdeploy, hruntime⟩
  · exact .refl _ _
  · have hids : ∀ id ∈ topContainers m, ∃ c ∈ sites, id = c.id := by
      intro id hid
      have hmem := List.mem_of_mem_filter hid
      rw [Module.topLevel, bodyBlock_of_extends (.refl (· ≠ s.entry) m) hlayout.body,
        hlayout.top] at hmem
      obtain ⟨c, hc, rfl⟩ := List.mem_map.1 hmem
      exact ⟨c, hc, rfl⟩
    have hext₁ : Module.Extends (· = ⟨0⟩) m q := extends_declareSymbols hlayout.body rfl hdeclare
    have hext₂ := extends_splitContainers hlayout hids hext₁ hsplit
    have hext₃ := extends_terminateNamed hlayout hs
      (hext₂.weaken fun b hb => hb ▸ hne) hdeploy
    exact extends_terminateNamed hlayout hs hext₃ hruntime

end Splitting

end EraVM

/-! ## Hoisting -/

/-- A function persists and stands in the body. -/
structure Hoisted (s : FunctionSite) (m : Module) : Prop where
  persists : s.Persists m
  body : m.region Module.body = ⟨[⟨0⟩], none⟩
  top_lt : 0 < m.blocks.size
  entry_ne : s.entry ≠ ⟨0⟩
  mem : s.id ∈ (m.block ⟨0⟩).ops

/-- A function persists and stands in the container `c`, or already in the body. -/
structure Hoisting (s : FunctionSite) (c : ContractSite) (m : Module) : Prop where
  persists : s.Persists m
  body : m.region Module.body = ⟨[⟨0⟩], none⟩
  top_lt : 0 < m.blocks.size
  entry_ne : s.entry ≠ ⟨0⟩
  regions : (m.op c.id).regions = [c.region]
  blocks : (m.region c.region).blocks = [c.body]
  mem : s.id ∈ (m.block ⟨0⟩).ops ∨ s.id ∈ (m.block c.body).ops

/-- An operation stands in the body, if it stands anywhere. -/
def Module.AtTop (m : Module) (id : OpId) : Prop := ∀ b, (m.op id).parent = some b → b = ⟨0⟩

namespace Module

variable {m : Module}

/-- Putting an operation in place keeps the kinds of operations. -/
theorem kind_insertOp (b : BlockId) (index : Option Nat) (id j : OpId) :
    (m.insertOp b index id).kind j = m.kind j := by
  rw [kind, op_insertOp]
  split <;> rfl

/-- What stands in the body or nowhere goes on to do so when an operation is taken out. -/
theorem AtTop.detachOp {j : OpId} (h : m.AtTop j) (id : OpId) : (m.detachOp id).AtTop j := by
  intro b hb
  rw [op_detachOp] at hb
  split at hb
  · cases hb
  · exact h b hb

/-- It goes on to do so when an operation is put into the body. -/
theorem AtTop.insertOp {j : OpId} (h : m.AtTop j) (index : Option Nat) (id : OpId) :
    (m.insertOp ⟨0⟩ index id).AtTop j := by
  intro b hb
  rw [op_insertOp] at hb
  split at hb
  · exact (Option.some.inj hb).symm
  · exact h b hb

/-- Another operation stays in its block while one is taken out. -/
theorem mem_block_detachOp {id j : OpId} {b : BlockId} (hmem : j ∈ (m.block b).ops)
    (hne : j ≠ id) : j ∈ ((m.detachOp id).block b).ops := by
  rw [block_detachOp]
  split
  · exact List.mem_filter.2 ⟨hmem, by simpa using hne⟩
  · exact hmem

/-- What stands in a block stands there when an operation is put in place. -/
theorem mem_block_insertOp {id j : OpId} {b x : BlockId} (index : Option Nat)
    (hmem : j ∈ (m.block x).ops) : j ∈ ((m.insertOp b index id).block x).ops := by
  rw [block_insertOp]
  split
  · simp [hmem]
  · exact hmem

/-- An operation that was put into a block stands there. -/
theorem mem_block_insertOp_self {id : OpId} {b : BlockId} (index : Option Nat)
    (hb : b.index < m.blocks.size) : id ∈ ((m.insertOp b index id).block b).ops := by
  rw [block_insertOp, if_pos ⟨rfl, hb⟩]
  simp

end Module

namespace Hoisting

variable {s : FunctionSite} {c : ContractSite} {m : Module}

/-- Moving a function to the body: a function that stands there stays there.

**Proof sketch.** The function that moves to the body is none of the lines.  If it is the
function at the site, it now stands in the body; otherwise it stays listed where it was. -/
theorem of_move (h : Hoisting s c m) {id : OpId} (hid : id ∉ s.ops) (index : Option Nat) :
    Hoisting s c ((m.detachOp id).insertOp ⟨0⟩ index id) ∧
      (s.id = id ∨ s.id ∈ (m.block ⟨0⟩).ops →
        s.id ∈ (((m.detachOp id).insertOp ⟨0⟩ index id).block ⟨0⟩).ops) := by
  have hself : id ∈ (((m.detachOp id).insertOp ⟨0⟩ index id).block ⟨0⟩).ops :=
    Module.mem_block_insertOp_self index (by simpa using h.top_lt)
  have hkeep : ∀ b, s.id ≠ id → s.id ∈ (m.block b).ops →
      s.id ∈ (((m.detachOp id).insertOp ⟨0⟩ index id).block b).ops := fun b hne hmem =>
    Module.mem_block_insertOp index (Module.mem_block_detachOp hmem hne)
  refine ⟨⟨?_, by simpa using h.body, by simpa using h.top_lt, h.entry_ne, ?_,
    by simpa using h.blocks, ?_⟩, ?_⟩
  · exact (h.persists.of_detachOp hid).of_insertOp h.entry_ne.symm index hid
  · rw [Module.op_insertOp, Module.op_detachOp]
    split <;> split <;> exact h.regions
  · by_cases hne : s.id = id
    · exact .inl (hne ▸ hself)
    · exact h.mem.imp (hkeep _ hne) (hkeep _ hne)
  · rintro (rfl | hmem)
    · exact hself
    · by_cases hne : s.id = id
      · exact hne ▸ hself
      · exact hkeep _ hne hmem

/-- Dropping another operation. -/
theorem of_detachOp (h : Hoisting s c m) {id : OpId} (hid : id ∉ s.ops) (hne : s.id ≠ id) :
    Hoisting s c (m.detachOp id) where
  persists := h.persists.of_detachOp hid
  body := by simpa using h.body
  top_lt := by simpa using h.top_lt
  entry_ne := h.entry_ne
  regions := by
    rw [Module.op_detachOp]
    split <;> exact h.regions
  blocks := by simpa using h.blocks
  mem := h.mem.imp (Module.mem_block_detachOp · hne) (Module.mem_block_detachOp · hne)

/-- A function in a container is found by walking the container. -/
theorem mem_walkOp (h : Hoisting s c m)
    (hmem : s.id ∈ (m.block c.body).ops) : s.id ∈ m.walkOp c.id := by
  refine List.mem_cons_of_mem _ ?_
  rw [h.regions]
  simp only [List.flatMap_cons, List.flatMap_nil, List.append_nil, Module.depthBound,
    Module.walkRegion, h.blocks, List.mem_flatMap, List.mem_cons]
  exact ⟨s.id, hmem, .inl rfl⟩

end Hoisting

namespace EraVM

variable {s : FunctionSite} {c : ContractSite} {m n : Module}

/-- **Hoisting some functions** keeps what is known of a function in a container, and puts it into
the body if it is one of them.

**Proof sketch.** Induction on the functions.  Each one moves in front of the container, which
stands in the body (`of_move`); kinds stay, and so do places in the body. -/
theorem hoisting_of_hoistFunctions {container : OpId} {ids : List OpId} {count : Nat}
    (hids : ∀ id ∈ ids, (m.kind id).isFunction = true) (h : Hoisting s c m)
    (htop : m.AtTop container) (hrun : (hoistFunctions container ids).run m = .ok count n) :
    Hoisting s c n ∧ (∀ j, n.kind j = m.kind j) ∧ (∀ j, m.AtTop j → n.AtTop j) ∧
      (s.id ∈ ids ∨ s.id ∈ (m.block ⟨0⟩).ops → s.id ∈ (n.block ⟨0⟩).ops) := by
  induction ids generalizing m count with
  | nil =>
    cases hrun
    exact ⟨h, fun _ => rfl, fun _ hj => hj, by simp⟩
  | cons id ids ih =>
    obtain ⟨-, p, rest, hmove, hrest⟩ := steps_of_hoistFunctions hrun
    obtain ⟨b, hb, rfl⟩ := Module.eq_of_moveBefore hmove
    obtain rfl := htop b hb
    generalize (m.detachOp id).indexOf? container = index at hrest
    have hsymbol : (m.kind id).isSymbol = true := by
      simp [OpKind.isSymbol, hids id (by simp)]
    obtain ⟨hmoved, hmem⟩ := h.of_move (h.persists.notMem_ops_of_isSymbol hsymbol) index
    have hkinds : ∀ j, ((m.detachOp id).insertOp ⟨0⟩ index id).kind j = m.kind j := fun j => by
      rw [Module.kind_insertOp, Module.kind_detachOp]
    have htops : ∀ j, m.AtTop j → ((m.detachOp id).insertOp ⟨0⟩ index id).AtTop j :=
      fun j hj => (hj.detachOp id).insertOp index id
    obtain ⟨hn, hkind, hat, hin⟩ := ih
      (fun j hj => by rw [hkinds]; exact hids j (by simp [hj])) hmoved (htops _ htop) hrest
    refine ⟨hn, fun j => (hkind j).trans (hkinds j), fun j hj => hat j (htops j hj), ?_⟩
    rintro (hs | hs)
    · rcases List.mem_cons.1 hs with rfl | hs
      · exact hin (.inr (hmem (.inl rfl)))
      · exact hin (.inl hs)
    · exact hin (.inr (hmem (.inr hs)))

/-- **Hoisting from some containers** puts the functions of every one of them into the body.

**Proof sketch.** Induction on the containers: the functions of the first one move
(`hoisting_of_hoistFunctions`), then it is dropped.  It is neither the function nor one of its
lines, so the function stays. -/
theorem hoisting_of_hoistFrom {containers : List OpId} {count : Nat}
    (hcontainers : ∀ k ∈ containers, (m.kind k).isContainer = true ∧ m.AtTop k)
    (h : Hoisting s c m) (hrun : (hoistFrom containers).run m = .ok count n) :
    Hoisting s c n ∧
      (c.id ∈ containers ∨ s.id ∈ (m.block ⟨0⟩).ops → s.id ∈ (n.block ⟨0⟩).ops) := by
  induction containers generalizing m count with
  | nil =>
    cases hrun
    exact ⟨h, by simp⟩
  | cons k ks ih =>
    obtain ⟨moved, p, q, rest, hmove, herase, hcount⟩ := steps_of_hoistFrom hrun
    obtain rfl := Module.eq_of_eraseOp herase
    obtain ⟨hk, htop⟩ := hcontainers k (by simp)
    obtain ⟨hp, hkinds, htops, hin⟩ := hoisting_of_hoistFunctions
      (fun id hid => (List.mem_filter.1 hid).2) h htop hmove
    -- The container is no line and not the function, so dropping it leaves the function alone.
    have hsymbol : (p.kind k).isSymbol = true := by simp [OpKind.isSymbol, hkinds, hk]
    have hne : s.id ≠ k := by
      rintro rfl
      rcases h.persists.kind with hkind | hkind <;> rw [hkind] at hk <;> cases hk
    have hq := hp.of_detachOp (hp.persists.notMem_ops_of_isSymbol hsymbol) hne
    have hks : ∀ j ∈ ks, ((p.detachOp k).kind j).isContainer = true ∧ (p.detachOp k).AtTop j := by
      intro j hj
      obtain ⟨hjkind, hjtop⟩ := hcontainers j (by simp [hj])
      rw [Module.kind_detachOp, hkinds]
      exact ⟨hjkind, (htops j hjtop).detachOp k⟩
    obtain ⟨hn, hend⟩ := ih hks hq hcount
    have hdone : k = c.id ∨ s.id ∈ (m.block ⟨0⟩).ops → s.id ∈ (n.block ⟨0⟩).ops := by
      intro hcase
      refine hend (.inr (Module.mem_block_detachOp (hin ?_) hne))
      rcases hcase with rfl | hmem
      · rcases h.mem with hmem | hmem
        · exact .inr hmem
        · exact .inl (List.mem_filter.2 ⟨h.mem_walkOp hmem, h.persists.isFunction⟩)
      · exact .inr hmem
    refine ⟨hn, fun hcase => ?_⟩
    rcases hcase with hc | hmem
    · rcases List.mem_cons.1 hc with rfl | hc
      · exact hdone (.inl rfl)
      · exact hend (.inl hc)
    · exact hdone (.inr hmem)

/-- Where hoisting starts: the functions stand in their containers, and these in the body.

**Proof sketch.** Every field is what the layout says about the site, kept by growth outside of
the entry block. -/
theorem hoisting_of_extends {source : Source} {contracts : List Contract}
    {sites : List ContractSite} (hlayout : Layout source contracts sites m) (hc : c ∈ sites)
    (hs : s ∈ c.functions) (hext : Module.Extends (· ≠ s.entry) m n) : Hoisting s c n := by
  have hin := hlayout.sites c hc
  obtain ⟨hsin, hpos⟩ := hin.functions s hs
  exact
    { persists := hsin.persists.of_extends hext fun hne => hne rfl
      body := body_of_extends hlayout hext
      top_lt := Nat.lt_of_lt_of_le hlayout.top_lt hext.size_blocks
      entry_ne := fun hz => Nat.ne_of_gt hpos (congrArg BlockId.index hz)
      regions := by
        rw [hext.ops _ hin.id_lt, hin.op]
        rfl
      blocks := by rw [hext.regions _ hin.region_lt, hin.region]
      mem := by
        refine .inr ((hext.grown c.body hin.body_lt).2.2.subset ?_)
        rw [hin.block]
        exact List.mem_map_of_mem hs }

/-- **After hoisting, every function stands in the body.**

**Proof sketch.** The containers of the body are those of the sites or new ones, and all stand at
the top, so `hoisting_of_hoistFrom` applies; the contract of the site is among them. -/
theorem hoisted_of_hoist {source : Source} {contracts : List Contract} {sites : List ContractSite}
    {p : Module} (hlayout : Layout source contracts sites m) (hc : c ∈ sites)
    (hs : s ∈ c.functions) (hext : Module.Extends (· ≠ s.entry) m p) {count : Nat}
    (h : hoist.run p = .ok count n) : Hoisted s n := by
  have hin := hlayout.sites c hc
  have hstart := hoisting_of_extends hlayout hc hs hext
  have htop : p.topLevel = (p.block ⟨0⟩).ops := by
    rw [Module.topLevel, bodyBlock_of_extends (.refl (· ≠ s.entry) p) hstart.body]
  have hfrom := (steps_of_hoist h).2
  have hcontainers : ∀ k ∈ topContainers p, (p.kind k).isContainer = true ∧ p.AtTop k := by
    intro k hk
    rw [topContainers, htop, List.mem_filter] at hk
    refine ⟨hk.2, fun b hb => ?_⟩
    rcases hext.new_members _ _ hk.1 with hold | ⟨_, hparent⟩
    · rw [hlayout.top] at hold
      obtain ⟨c', hc', rfl⟩ := List.mem_map.1 hold
      rw [hext.ops _ (hlayout.sites c' hc').id_lt, (hlayout.sites c' hc').op] at hb
      exact (Option.some.inj hb).symm
    · rw [hparent] at hb
      exact (Option.some.inj hb).symm
  obtain ⟨hn, hmem⟩ := hoisting_of_hoistFrom hcontainers hstart hfrom
  refine ⟨hn.persists, hn.body, hn.top_lt, hn.entry_ne, hmem (.inl ?_)⟩
  rw [topContainers, htop, List.mem_filter]
  refine ⟨(hext.grown ⟨0⟩ hlayout.top_lt).2.2.subset ?_, ?_⟩
  · rw [hlayout.top]
    exact List.mem_map_of_mem hc
  · rw [Module.kind, hext.ops _ hin.id_lt, hin.op]
    rfl

end EraVM

end ContractIR
