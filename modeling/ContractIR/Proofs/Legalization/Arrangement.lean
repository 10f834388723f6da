import ContractIR.Proofs.Legalization.Conditions
import ContractIR.Proofs.Legalization.Lifting

/-!
# How legalized modules are arranged

A lowered module is a list of contracts, each of which is a list of functions.  Splitting puts the
symbols of the ABI in front of the contracts and generated functions behind them, hoisting puts the
functions of each contract in its place, and conversion leaves all of them where they are.  So the
body of the result can be listed, with what each of its operations is.

## Main definitions

* `ContractIR.EraVM.IsGenerated` — the entry function and the functions for code.
* `ContractIR.EraVM.Appends` — generated functions join the body at its end.
* `ContractIR.EraVM.Arranged` — the body of a module that was split.
* `ContractIR.EraVM.Inventory` — the body of a legalized module.

## Main results

* `ContractIR.EraVM.arranged_of_lowerContainers` — how a lowered module is split.
* `ContractIR.EraVM.exists_inventory` — what the body of a legalized module lists.
-/

set_option autoImplicit false

namespace ContractIR

/-- Members of a list are met in order where each of them comes before other things. -/
theorem sublist_flatMap_cons {α : Type} (f : α → List α) (xs : List α) :
    xs.Sublist (xs.flatMap fun x => x :: f x) := by
  induction xs with
  | nil => exact .slnil
  | cons x xs ih =>
    rw [List.flatMap_cons, List.cons_append]
    exact (ih.trans (List.sublist_append_right _ _)).cons_cons x

/-- The operations of a block are met in order by a walk of the operation that owns the block. -/
theorem Module.sublist_walkOp {m : Module} {k : OpId} {r : RegionId} {b : BlockId}
    (hr : r ∈ (m.op k).regions) (hb : b ∈ (m.region r).blocks) :
    (m.block b).ops.Sublist (m.walkOp k) := by
  have hregion : (m.block b).ops.Sublist (m.walkRegion m.depthBound r) :=
    (sublist_flatMap_cons _ _).trans
      (List.sublist_flatten_of_mem (List.mem_map.2 ⟨b, hb, rfl⟩))
  exact .cons k (hregion.trans (List.sublist_flatten_of_mem (List.mem_map.2 ⟨r, hr, rfl⟩)))

namespace EraVM

open ContractIR.Module (Extends Retains)

variable {m n p q : Module}

/-! ## What is generated -/

/-- An operation is the entry function, or a function for the code of containers. -/
def IsGenerated (m : Module) (o : OpId) : Prop :=
  (∃ entry deploy runtime, EntryFunction m o entry deploy runtime) ∨
    IsRoutineFunction m deployName .deploy o ∨ IsRoutineFunction m runtimeName .runtime o

/-- A block belongs to what goes by the name of the entry function. -/
def InEntry (m : Module) (b : BlockId) : Prop :=
  ∃ f, m.owner? b = some f ∧ m.symName? f = some entryName

section Entry

variable {f : OpId} {entry deploy runtime : BlockId}

/-- The entry function goes by its name. -/
theorem EntryFunction.symName? (h : EntryFunction m f entry deploy runtime) :
    m.symName? f = some entryName := by
  rw [Module.symName?, Module.attr?, h.attrs]
  rfl

/-- The blocks of the entry function belong to it. -/
theorem EntryFunction.owner?_eq (h : EntryFunction m f entry deploy runtime) (hm : m.Linked)
    {x : BlockId} (hx : x ∈ [entry, deploy, runtime]) :
    x.index < m.blocks.size ∧ m.owner? x = some f := by
  obtain ⟨r, hr, hblocks⟩ := h.region
  have hmem : x ∈ (m.region r).blocks := hblocks ▸ hx
  have hlt := hm.blocks_lt r x hmem
  refine ⟨hlt, ?_⟩
  rw [Module.owner?, (hm.block_parent x r hlt).2 hmem]
  exact (hm.region_parent r f).2 (by simp [hr])

/-- The entry function stays while its blocks list what they listed. -/
theorem EntryFunction.of_retains (h : EntryFunction m f entry deploy runtime) (hm : m.Linked)
    {X : BlockId → Prop} (hX : ∀ x ∈ [entry, deploy, runtime], X x) (hn : Retains X m n) :
    EntryFunction n f entry deploy runtime := by
  refine h.congr (hn.ops f (hm.lt_of_owner? (h.owner?_eq hm (x := entry) (by simp)).2).2)
    (fun s hs => hn.regions s (hm.regions_lt hs)) (fun x hx => ?_) fun x _ => hn.same_ops hm
  have hlt := (h.owner?_eq hm hx).1
  exact ⟨hn.listed x hlt (hX x hx), hn.args x hlt⟩

end Entry

/-- What is generated is a low-level function. -/
theorem IsGenerated.kind_eq {o : OpId} (h : IsGenerated m o) : m.kind o = .llvm .func := by
  rcases h with ⟨_, _, _, h⟩ | h | h
  · exact h.kind
  · exact h.1
  · exact h.1

/-- What is generated goes by one of three names, and is what goes by this name. -/
theorem IsGenerated.symName?_cases {o : OpId} (h : IsGenerated m o) :
    m.symName? o = some entryName ∧
        (∃ entry deploy runtime, EntryFunction m o entry deploy runtime) ∨
      m.symName? o = some deployName ∧ IsRoutineFunction m deployName .deploy o ∨
      m.symName? o = some runtimeName ∧ IsRoutineFunction m runtimeName .runtime o := by
  rcases h with ⟨entry, deploy, runtime, h⟩ | h | h
  · exact .inl ⟨h.symName?, entry, deploy, runtime, h⟩
  · exact .inr (.inl ⟨h.symName?, h⟩)
  · exact .inr (.inr ⟨h.symName?, h⟩)

/-- What is generated stays while blocks of the entry function list what they listed. -/
theorem IsGenerated.of_retains {o : OpId} (h : IsGenerated m o) (hm : m.Linked)
    (ho : o.index < m.ops.size) (hn : Retains (InEntry m) m n) : IsGenerated n o := by
  rcases h with ⟨entry, deploy, runtime, h⟩ | h | h
  · exact .inl ⟨entry, deploy, runtime, h.of_retains hm
      (fun x hx => ⟨o, (h.owner?_eq hm hx).2, h.symName?⟩) hn⟩
  · exact .inr (.inl (h.congr (hn.ops o ho)))
  · exact .inr (.inr (h.congr (hn.ops o ho)))

/-! ## Generated functions join the body -/

/-- Generated functions join the body at its end, and the blocks of the entry function list what
they listed. -/
structure Appends (m n : Module) (added : List OpId) : Prop where
  linked : n.Linked
  retains : Retains (InEntry m) m n
  listed : (n.block m.bodyBlock).ops = (m.block m.bodyBlock).ops ++ added
  generated : ∀ o ∈ added, m.ops.size ≤ o.index ∧ IsGenerated n o

namespace Appends

variable {added more : List OpId}

/-- Nothing was generated. -/
theorem refl (hm : m.Linked) : Appends m m [] :=
  ⟨hm, .refl _ _, (List.append_nil _).symm, by simp⟩

/-- Some functions join, and then some more.

**Proof sketch.** The first functions were there when the second ones joined, so what is retained
and generated stays so.  The body lists the first ones and then the second ones. -/
theorem trans (h : Appends m n added) (k : Appends n p more) (hm : m.Linked) :
    Appends m p (added ++ more) where
  linked := k.linked
  retains := by
    refine h.retains.trans_of k.retains ?_
    rintro b hb ⟨f, hf, hname⟩
    refine ⟨f, by rw [h.retains.owner?_eq hm hb, hf], ?_⟩
    rw [(h.retains.ops f (hm.lt_of_owner? hf).2).symName?_eq, hname]
  listed := by
    rw [← h.retains.bodyBlock_eq hm, k.listed, h.retains.bodyBlock_eq hm, h.listed,
      List.append_assoc]
  generated o ho := by
    rcases List.mem_append.1 ho with ho | ho
    · obtain ⟨hle, ho'⟩ := h.generated o ho
      have hlt : o.index < n.ops.size := h.linked.ops_lt (b := m.bodyBlock) (by simp [h.listed, ho])
      exact ⟨hle, ho'.of_retains h.linked hlt k.retains⟩
    · obtain ⟨hle, ho'⟩ := k.generated o ho
      exact ⟨Nat.le_trans h.retains.size_ops hle, ho'⟩

/-- A function joins. -/
theorem of_grown (hm : m.Linked) (hbody : m.hasBody = true) (hn : n.Linked) {f : OpId}
    (hext : Extends (· = m.bodyBlock) m n)
    (hlisted : (n.block m.bodyBlock).ops = (m.block m.bodyBlock).ops ++ [f])
    (hf : m.ops.size ≤ f.index) (hgenerated : IsGenerated n f) : Appends m n [f] where
  linked := hn
  retains := by
    refine .of_extends hext ?_
    rintro b ⟨f, hf, -⟩ rfl
    rw [hm.owner?_bodyBlock hbody] at hf
    cases hf
  listed := hlisted
  generated o ho := by
    rw [List.mem_singleton.1 ho]
    exact ⟨hf, hgenerated⟩

end Appends

/-- The function for the code of a context joins, unless it is there. -/
theorem appends_of_codeFunction (hm : m.Linked) (hbody : m.hasBody = true) {name : String}
    {context : CodeContext} (hname : name = deployName ∧ context = .deploy ∨
      name = runtimeName ∧ context = .runtime) {e : BlockId}
    (h : (codeFunction name context).run m = .ok e n) : ∃ added, Appends m n added := by
  rcases routineMade_of_run hm (hm.bodyBlock_lt hbody) h with ⟨rfl, -⟩ | ⟨f, hmade⟩
  · exact ⟨[], .refl hm⟩
  · refine ⟨[f], .of_grown hm hbody hmade.linked hmade.grown hmade.listed (by rw [hmade.id]) ?_⟩
    rcases hname with ⟨rfl, rfl⟩ | ⟨rfl, rfl⟩
    · exact .inr (.inl hmade.function)
    · exact .inr (.inr hmade.function)

/-- The entry function joins. -/
theorem appends_of_buildEntry (hm : m.Linked) (hbody : m.hasBody = true) {location : Location}
    {f : OpId} (h : (buildEntry location).run m = .ok f n) : Appends m n [f] := by
  have hbuilt := entryBuilt_of_run hm (hm.bodyBlock_lt hbody) h
  exact .of_grown hm hbody hbuilt.linked hbuilt.grown hbuilt.listed (by rw [hbuilt.id])
    (.inl ⟨_, _, _, hbuilt.entry⟩)

/-! ## Splitting -/

section Splitting

variable {source : Source} {contracts : List Contract} {sites : List ContractSite} {a : Unit}

/-- A module that grew out of a lowered one has a body. -/
theorem hasBody_of_extends (hlayout : Layout source contracts sites m) {B : BlockId → Prop}
    (hext : Extends B m p) : p.hasBody = true := by
  rw [Module.hasBody, body_of_extends hlayout hext]
  rfl

/-- Splitting a contract lets generated functions join. -/
theorem appends_of_splitRuntime (hlayout : Layout source contracts sites m)
    (hext : Extends (· = ⟨0⟩) m p) (hp : p.Linked) {c : ContractSite} (hc : c ∈ sites)
    {location : Location} (h : (splitRuntime c.body location).run p = .ok a n) :
    ∃ added, Appends p n added := by
  obtain ⟨target, q, hcode, hmove⟩ := Outcome.run_bind_eq_ok.1 h
  have hq := hext.trans (extends_codeFunction (body_of_extends hlayout hext) rfl hcode)
  obtain rfl := run_moveCode_contract ((hlayout.sites c hc).mono hq) hmove
  exact appends_of_codeFunction hp (hasBody_of_extends hlayout hext) (.inr ⟨rfl, rfl⟩) hcode

/-- Splitting a deployable contract lets generated functions join. -/
theorem appends_of_splitDeployable (hlayout : Layout source contracts sites m)
    (hext : Extends (· = ⟨0⟩) m p) (hp : p.Linked) {c : ContractSite} (hc : c ∈ sites)
    {name : String} {location : Location}
    (h : (splitDeployable name c.body location).run p = .ok a n) : ∃ added, Appends p n added := by
  obtain ⟨-, objects, f, q₁, deployBody, q₂, q₃, runtimeBody, q₄, hobjects, hentry, hdeploy, hmove,
    hruntime, hrest⟩ := steps_of_splitDeployable h
  obtain rfl := run_runtimeObjects_contract ((hlayout.sites c hc).mono hext) hobjects
  have hext₁ := hext.trans (extends_buildEntry (body_of_extends hlayout hext) rfl hentry)
  have happends₁ := appends_of_buildEntry hp (hasBody_of_extends hlayout hext) hentry
  have hext₂ := hext₁.trans (extends_codeFunction (body_of_extends hlayout hext₁) rfl hdeploy)
  obtain ⟨added₂, happends₂⟩ := appends_of_codeFunction happends₁.linked
    (hasBody_of_extends hlayout hext₁) (.inl ⟨rfl, rfl⟩) hdeploy
  obtain rfl := run_moveCode_contract ((hlayout.sites c hc).mono hext₂) hmove
  obtain ⟨added₄, happends₄⟩ := appends_of_codeFunction happends₂.linked
    (hasBody_of_extends hlayout hext₂) (.inr ⟨rfl, rfl⟩) hruntime
  cases hrest
  exact ⟨_, (happends₁.trans happends₂ hp).trans happends₄ hp⟩

/-- **Splitting contracts lets generated functions join.**

**Proof sketch.** Induction on the containers.  Each is the contract of a site and is split as
runtime code or as deployable; either lets functions join, and the rest goes on from there. -/
theorem appends_of_splitContainers (hlayout : Layout source contracts sites m) {ids : List OpId}
    (hids : ∀ id ∈ ids, ∃ c ∈ sites, id = c.id) (hext : Extends (· = ⟨0⟩) m p) (hp : p.Linked)
    (h : (splitContainers ids).run p = .ok a n) : ∃ added, Appends p n added := by
  induction ids generalizing p with
  | nil =>
    cases h
    exact ⟨[], .refl hp⟩
  | cons id ids ih =>
    obtain ⟨c, hc, rfl⟩ := hids id (by simp)
    obtain ⟨name, body, q, -, hbody, hsplit, hrest⟩ := steps_of_splitContainers h
    obtain rfl := Option.some.inj
      (((hlayout.sites c hc).mono hext).entryBlock?_eq.symm.trans hbody)
    have hstep : Extends (· = ⟨0⟩) m q ∧ ∃ added, Appends p q added := by
      rcases hsplit with ⟨-, hsplit⟩ | ⟨-, hsplit⟩
      · exact ⟨extends_splitRuntime hlayout hext hc hsplit,
          appends_of_splitRuntime hlayout hext hp hc hsplit⟩
      · exact ⟨extends_splitDeployable hlayout hext hc hsplit,
          appends_of_splitDeployable hlayout hext hp hc hsplit⟩
    obtain ⟨hext₁, added, happends⟩ := hstep
    obtain ⟨more, hmore⟩ := ih (fun j hj => hids j (by simp [hj])) hext₁ happends.linked hrest
    exact ⟨added ++ more, happends.trans hmore hp⟩

/-- What was listed is listed first, and the rest is new and declares nothing. -/
def ListsFirst (m n : Module) (b : BlockId) : Prop :=
  ∃ code, (n.block b).ops = (m.block b).ops ++ code ∧ ∀ o ∈ code, (n.kind o).isSymbol = false

/-- Ending a function for code leaves the body, and the entry function.

**Proof sketch.** Without such a function, or with one that is ended, nothing changes.  Otherwise
only its entry block grows, by code that ends it; that block is not the body, and its function not
the entry function. -/
theorem appends_of_terminateNamed (hm : m.Linked) (hbody : m.hasBody = true) {name : String}
    (hname : IsRoutine name) (h : (terminateNamed name).run m = .ok a n) :
    Appends m n [] ∧ Extends (fun _ => True) m n ∧
      ∀ b : BlockId, b.index < m.blocks.size → ListsFirst m n b := by
  have hsame : Appends m m [] ∧ Extends (fun _ => True) m m ∧
      ∀ b : BlockId, b.index < m.blocks.size → ListsFirst m m b :=
    ⟨.refl hm, .refl _ _, fun b _ => ⟨[], (List.append_nil _).symm, by simp⟩⟩
  rcases steps_of_terminateNamed h with rfl | ⟨f, hf, h⟩
  · exact hsame
  · rcases terminated_of_run hm h with rfl | ⟨e, he, hterminated⟩
    · exact hsame
    · obtain ⟨-, -, hsym⟩ := Module.standsIn_of_lookupTop? hf
      obtain ⟨-, howner⟩ := Module.owner?_of_entryBlock? hm he
      refine ⟨⟨hterminated.linked, .of_extends hterminated.grown ?_, ?_, by simp⟩,
        hterminated.grown.weaken fun _ _ => trivial, fun b hb => ?_⟩
      · rintro b ⟨f', hf', hentry⟩ rfl
        obtain rfl : f = f' := Option.some.inj (howner.symm.trans hf')
        rw [hsym] at hentry
        rcases hname with rfl | rfl <;> exact absurd hentry (by decide)
      · rw [hterminated.grown.blocks _ (hm.bodyBlock_lt hbody), List.append_nil]
        rintro rfl
        rw [hm.owner?_bodyBlock hbody] at howner
        cases howner
      · by_cases hbe : b = e
        · obtain ⟨code, hcode, hnew⟩ := hterminated.listed
          refine ⟨code, by rw [hbe]; exact hcode, fun o ho => hterminated.new o (hnew o ho) ?_⟩
          exact hterminated.linked.ops_lt (b := e) (by simp [hcode, ho])
        · exact ⟨[], by rw [hterminated.grown.blocks b hb hbe, List.append_nil], by simp⟩

/-- A block that lists what it listed first, twice. -/
theorem ListsFirst.trans {b : BlockId} (h : ListsFirst m n b) (k : ListsFirst n p b)
    (hext : Extends (fun _ => True) n p) (hn : n.Linked) : ListsFirst m p b := by
  obtain ⟨code, hcode, hsymbols⟩ := h
  obtain ⟨more, hmore, hsymbols'⟩ := k
  refine ⟨code ++ more, by rw [hmore, hcode, List.append_assoc], fun o ho => ?_⟩
  rcases List.mem_append.1 ho with ho | ho
  · have hlt : o.index < n.ops.size := hn.ops_lt (b := b) (by simp [hcode, ho])
    rw [Module.kind, hext.ops o hlt]
    exact hsymbols o ho
  · exact hsymbols' o ho

/-- The body of a lowered module that was split: the symbols of the ABI, the contracts, and
generated functions. -/
structure Arranged (m n : Module) (sites : List ContractSite) (globals : List Global)
    (code rest added : List OpId) : Prop where
  linked : n.Linked
  grown : Extends (fun _ => True) m n
  body : n.region Module.body = ⟨[⟨0⟩], none⟩
  listed : (n.block ⟨0⟩).ops = code ++ rest ++ sites.map ContractSite.id ++ added
  sublist : globals.Sublist Global.all
  globals : List.Forall₂ (IsGlobal n) code globals
  declaration : rest = [] ∨ ∃ o, rest = [o] ∧ IsReturnDeclaration n o
  bodyless : ∀ o ∈ rest, n.entryBlock? o = none
  generated : ∀ o ∈ added, IsGenerated n o
  new : ∀ o ∈ code ++ rest ++ added, m.ops.size ≤ o.index
  bodies : ∀ c ∈ sites, ListsFirst m n c.body

/-- The contracts are the containers of the body. -/
theorem topContainers_eq (hlayout : Layout source contracts sites m) :
    topContainers m = sites.map ContractSite.id := by
  have htop : m.topLevel = sites.map ContractSite.id := by
    rw [Module.topLevel, bodyBlock_of_extends (.refl (fun _ => True) m) hlayout.body, hlayout.top]
  rw [topContainers, htop]
  refine List.filter_eq_self.2 fun o ho => ?_
  obtain ⟨c, hc, rfl⟩ := List.mem_map.1 ho
  rw [Module.kind, (hlayout.sites c hc).op]
  rfl

/-- **How a lowered module is split.**

**Proof sketch.** Step by step: symbols are declared in front of the contracts, the contracts are
split, which adds functions behind them (`appends_of_splitContainers`), and the two functions for
code are ended (`appends_of_terminateNamed`).  Each step leaves what the others listed. -/
theorem arranged_of_lowerContainers (hm : m.Linked) (hlayout : Layout source contracts sites m)
    (h : lowerContainers.run m = .ok a n) :
    ∃ globals code rest added, Arranged m n sites globals code rest added := by
  have hbody := hasBody_of_extends hlayout (.refl (fun _ => True) m)
  have hzero : m.bodyBlock = ⟨0⟩ := bodyBlock_of_extends (.refl (fun _ => True) m) hlayout.body
  have htop : (m.block ⟨0⟩).ops = sites.map ContractSite.id := by rw [hlayout.top]
  rcases (steps_of_lowerContainers h).2 with
    ⟨hnone, rfl⟩ | ⟨q, p₁, p₂, hdeclare, hsplit, hdeploy, hruntime⟩
  · rw [topContainers_eq hlayout] at hnone
    refine ⟨[], [], [], [], hm, .refl _ _, hlayout.body, by simp [htop, hnone], List.nil_sublist _,
      .nil, .inl rfl, by simp, by simp, by simp,
      fun c hc => ⟨[], (List.append_nil _).symm, by simp⟩⟩
  · obtain ⟨globals, code, rest, hdeclared⟩ :=
      symbolsDeclared_of_run hm (hm.bodyBlock_lt hbody) hdeclare
    have hext : Extends (· = ⟨0⟩) m q := hzero ▸ hdeclared.grown
    have hids : ∀ o ∈ topContainers m, ∃ c ∈ sites, o = c.id := by
      intro o ho
      rw [topContainers_eq hlayout] at ho
      obtain ⟨c, hc, rfl⟩ := List.mem_map.1 ho
      exact ⟨c, hc, rfl⟩
    obtain ⟨added, happends⟩ := appends_of_splitContainers hlayout hids hext hdeclared.linked hsplit
    have hext₁ := extends_splitContainers hlayout hids hext hsplit
    obtain ⟨happends₂, hext₂, hlists₂⟩ := appends_of_terminateNamed happends.linked
      (hasBody_of_extends hlayout hext₁) (.inl rfl) hdeploy
    obtain ⟨happends₃, hext₃, hlists₃⟩ := appends_of_terminateNamed happends₂.linked
      (hasBody_of_extends hlayout ((hext₁.weaken fun _ _ => trivial).trans hext₂)) (.inr rfl)
      hruntime
    have hall := (happends.trans happends₂ hdeclared.linked).trans happends₃ hdeclared.linked
    rw [List.append_nil, List.append_nil] at hall
    have hgrown := ((hext₁.weaken fun _ _ => trivial).trans hext₂).trans hext₃
    have hqn : ∀ o ∈ code ++ rest, q.SameOp n o := fun o ho =>
      hall.retains.ops o ((hdeclared.new o).1 ho).2
    refine ⟨globals, code, rest, added, hall.linked, hgrown, body_of_extends hlayout hgrown, ?_,
      hdeclared.sublist, ?_, ?_, fun o ho => ?_, fun o ho => (hall.generated o ho).2,
      fun o ho => ?_, fun c hc => ?_⟩
    · have hqzero : q.bodyBlock = ⟨0⟩ := bodyBlock_of_extends hext hlayout.body
      have hlisted := hall.listed
      rw [hqzero, ← hzero, hdeclared.listed, hzero, htop] at hlisted
      exact hlisted
    · have hboth := (List.forall₂_and_left _ _).2
        ⟨fun o ho => hqn o (List.mem_append_left _ ho), hdeclared.globals⟩
      exact hboth.imp fun o g hg => hg.2.congr hg.1
    · rcases hdeclared.rest with hnone | ⟨o, hrest, ho⟩
      · exact .inl hnone
      · exact .inr ⟨o, hrest, ho.congr (hqn o (by simp [hrest]))⟩
    · have hmem := List.mem_append_right code ho
      rw [hall.retains.entryBlock?_eq hdeclared.linked ((hdeclared.new o).1 hmem).2]
      exact hdeclared.entryBlock?_eq_none hmem
    · rcases List.mem_append.1 ho with ho | ho
      · exact ((hdeclared.new o).1 ho).1
      · exact Nat.le_trans hdeclared.grown.size_ops (hall.generated o ho).1
    · have hin := hlayout.sites c hc
      have hfirst : ListsFirst m p₁ c.body := by
        refine ⟨[], ?_, by simp⟩
        rw [hext₁.blocks c.body hin.body_lt ?_, List.append_nil]
        rintro hzero
        exact Nat.ne_of_gt hin.body_pos (congrArg BlockId.index hzero)
      have hlt₁ := Nat.lt_of_lt_of_le hin.body_lt hext₁.size_blocks
      have hlt₂ := Nat.lt_of_lt_of_le hlt₁ hext₂.size_blocks
      exact (hfirst.trans (hlists₂ _ hlt₁) hext₂ happends.linked).trans (hlists₃ _ hlt₂) hext₃
        happends₂.linked

end Splitting

/-! ## Hoisting -/

section Hoisting

variable {source : Source} {contracts : List Contract} {sites : List ContractSite} {env : Env}
  {contexts : Contexts} {globals : List Global} {code rest added : List OpId}

/-- **The functions of a contract** are met in the order in which they were declared.

**Proof sketch.** The block of the contract lists its functions, in their order, and behind them
nothing that is a symbol; this is part of what the walk meets.  Every function met in the contract
is one of its site's, so the lists have the same members. -/
theorem Arranged.functionsIn_eq (h : Arranged m n sites globals code rest added)
    (hlayout : Layout source contracts sites m)
    (hsealed : Sealed env contexts (sites.map ContractSite.id) sites n) {c : ContractSite}
    (hc : c ∈ sites) : functionsIn n c.id = c.functions.map FunctionSite.id := by
  have hin := hlayout.sites c hc
  have hid : n.op c.id = m.op c.id := h.grown.ops _ hin.id_lt
  have hcontainer : (n.kind c.id).isContainer = true := by
    rw [Module.kind, hid, hin.op]
    rfl
  have hregion : n.region c.region = ⟨[c.body], some c.id⟩ := by
    rw [h.grown.regions _ hin.region_lt, hin.region]
  have hsub : ((n.block c.body).ops.filter fun o => (n.kind o).isFunction).Sublist
      (functionsIn n c.id) := by
    refine (Module.sublist_walkOp (r := c.region) (b := c.body) ?_ (by simp [hregion])).filter _
    rw [hid, hin.op]
    simp [Module.OpSpec.toOp, Module.contractSpec]
  have hlisted : ((n.block c.body).ops.filter fun o => (n.kind o).isFunction) =
      c.functions.map FunctionSite.id := by
    obtain ⟨more, hmore, hsymbols⟩ := h.bodies c hc
    rw [hmore, List.filter_append, hin.block, List.filter_eq_self.2, List.filter_eq_nil_iff.2,
      List.append_nil]
    · intro o ho hfunction
      have hsymbol := hsymbols o ho
      rw [OpKind.isSymbol, hfunction] at hsymbol
      cases hsymbol
    · intro o ho
      obtain ⟨s, hs, rfl⟩ := List.mem_map.1 ho
      obtain ⟨hs, -⟩ := hin.functions s hs
      rw [Module.kind, h.grown.ops _ hs.id_lt]
      exact (congrArg OpKind.isFunction hs.kind_eq).trans rfl
  have hperm := perm_functions hsealed (hsealed.standing c hc) hcontainer
  rw [hlisted] at hsub
  exact (hsub.eq_of_length hperm.length_eq.symm).symm

/-- What is new in the body is low-level.

**Proof sketch.** Declared globals, the declaration of the return function and generated
functions are all written in the low-level dialect. -/
theorem Arranged.dialect_eq (h : Arranged m n sites globals code rest added) {o : OpId}
    (ho : o ∈ code ++ rest ++ added) : o.index < n.ops.size ∧ (n.kind o).dialect = .llvm := by
  refine ⟨h.linked.ops_lt (b := ⟨0⟩) ?_, ?_⟩
  · rw [h.listed]
    simp only [List.mem_append] at ho ⊢
    exact ho.imp_left .inl
  · simp only [List.mem_append] at ho
    rcases ho with (ho | ho) | ho
    · obtain ⟨g, -, hg⟩ := Outcome.exists_right h.globals ho
      rw [hg.1]
      rfl
    · rcases h.declaration with rfl | ⟨o', rfl, hreturn⟩
      · cases ho
      · rw [List.mem_singleton.1 ho, hreturn.1]
        rfl
    · rw [(h.generated o ho).kind_eq]
      rfl

/-- **Hoisting puts the functions of each contract in its place.**

**Proof sketch.** The list is mapped part by part: what is new is no container and stays, and
each contract gives its functions (`functionsIn_eq`). -/
theorem Arranged.hoisted (h : Arranged m n sites globals code rest added)
    (hlayout : Layout source contracts sites m)
    (hsealed : Sealed env contexts (sites.map ContractSite.id) sites n) :
    ((n.block ⟨0⟩).ops.flatMap fun o => if (n.kind o).isContainer then functionsIn n o else [o]) =
      code ++ rest ++ (sites.flatMap fun c => c.functions.map FunctionSite.id) ++ added := by
  have hsame : ∀ ids : List OpId, ids ⊆ code ++ rest ++ added →
      (ids.flatMap fun o => if (n.kind o).isContainer then functionsIn n o else [o]) = ids := by
    intro ids hids
    rw [List.flatMap_congr fun o ho => ?_]
    · exact List.flatMap_singleton' ids
    · exact if_neg (by simp [isContainer_of_dialect (h.dialect_eq (hids ho)).2])
  have hcontracts : ((sites.map ContractSite.id).flatMap fun o =>
      if (n.kind o).isContainer then functionsIn n o else [o]) =
      sites.flatMap fun c => c.functions.map FunctionSite.id := by
    rw [List.flatMap_map]
    refine List.flatMap_congr fun c hc => ?_
    have hin := hlayout.sites c hc
    rw [if_pos, h.functionsIn_eq hlayout hsealed hc]
    rw [Module.kind, h.grown.ops _ hin.id_lt, hin.op]
    rfl
  rw [h.listed, List.flatMap_append, List.flatMap_append, hcontracts, hsame added (by simp),
    hsame (code ++ rest) (by simp)]

end Hoisting

/-! ## Legalized modules -/

section Kept

variable {o : OpId} {become : OpId → List OpId}

/-- What is generated stays when functions are hoisted. -/
theorem IsGenerated.of_lifts (h : IsGenerated m o) (hm : m.Linked) (hbody : m.hasBody = true)
    (ho : o.index < m.ops.size) (hn : Lifts m n) : IsGenerated n o := by
  rcases h with ⟨entry, deploy, runtime, h⟩ | h | h
  · refine .inl ⟨entry, deploy, runtime, h.of_retains hm (fun x hx => ⟨?_, fun p hp => ?_⟩)
      hn.retains⟩
    · rintro rfl
      have howner := (h.owner?_eq hm hx).2
      rw [hm.owner?_bodyBlock hbody] at howner
      cases howner
    · have hsymbol := (h.plain x hx p hp).2
      rw [OpKind.isSymbol, Bool.or_eq_false_iff, Bool.or_eq_false_iff] at hsymbol
      simp_all
  · exact .inr (.inl (h.congr (hn.retains.ops o ho)))
  · exact .inr (.inr (h.congr (hn.retains.ops o ho)))

/-- Low-level code is not converted. -/
theorem Reworks.sameOp (h : Reworks m n become) (ho : o.index < m.ops.size)
    (hdialect : (m.kind o).dialect = .llvm) : m.SameOp n o := .of_eq (h.low o ho hdialect).1

/-- What is generated stays when the rest is converted.

**Proof sketch.** By the three sorts of generated functions.  The conversion keeps low-level
operations as they are, and the code of an entry function is low-level, so its blocks list what
they listed. -/
theorem IsGenerated.of_reworks (h : IsGenerated m o) (hm : m.Linked) (ho : o.index < m.ops.size)
    (hn : Reworks m n become) : IsGenerated n o := by
  have hsame : m.SameOp n o := hn.sameOp ho (by rw [h.kind_eq]; rfl)
  rcases h with ⟨entry, deploy, runtime, h⟩ | h | h
  · refine .inl ⟨entry, deploy, runtime, h.congr hsame
      (fun r hr => hn.regions r (hm.regions_lt hr)) (fun x hx => ⟨?_, hn.args x⟩)
      fun x hx p hp => ?_⟩
    · rw [hn.listed, List.flatMap_congr fun p hp => ?_]
      · exact List.flatMap_singleton' _
      · refine (hn.code p (hm.ops_lt hp) fun hkind => ?_).1
        have hdialect := (h.plain x hx p hp).1
        rw [hkind] at hdialect
        cases hdialect
    · have hlow := hn.low p (hm.ops_lt hp) (h.plain x hx p hp).1
      exact ⟨.of_eq hlow.1, hlow.2⟩
  · exact .inr (.inl (h.congr hsame))
  · exact .inr (.inr (h.congr hsame))

end Kept

/-- A function in its low-level form. -/
theorem function_of_lowForm {f : OpId} {name : String} {signature : Signature}
    (hkind : m.kind f = .func .func) (hname : m.symName? f = some name)
    (hsignature : m.signature? f = some signature) (h : LowForm (m.op f) (n.op f))
    (hdialect : (n.kind f).dialect = .llvm) :
    n.kind f = .llvm .func ∧ n.symName? f = some name ∧ n.signature? f = some signature := by
  have hattr : ∀ x, x ≠ AttrName.linkage → x ≠ AttrName.elemType → n.attr? f x = m.attr? f x :=
    h.attrs
  refine ⟨?_, ?_, ?_⟩
  · calc n.kind f = (n.kind f).low := (low_of_dialect hdialect).symm
      _ = (m.kind f).low := h.kind
      _ = .llvm .func := by rw [hkind]; rfl
  · rw [Module.symName?, hattr _ (by decide) (by decide)]
    exact hname
  · rw [Module.signature?, hattr _ (by decide) (by decide)]
    exact hsignature

/-- The body of a legalized module: globals of the ABI, the declaration of the return function, the
functions of the contracts, and generated functions.  What was to be generated is there unless a
contract has its name, and a name means everywhere what the body declares. -/
structure Inventory (m n : Module) (contracts : List Contract) (sites : List ContractSite)
    (globals : List Global) (code rest added : List OpId) : Prop where
  linked : n.Linked
  verified : n.verify = .ok ()
  top : n.TopLevel
  resolves : ∀ o, n.isAttached o = true → ∀ name, n.lookup? o name = n.lookupTop? name
  listed : (n.block ⟨0⟩).ops =
    code ++ rest ++ (sites.flatMap fun c => c.functions.map FunctionSite.id) ++ added
  sublist : globals.Sublist Global.all
  globals : List.Forall₂ (IsGlobal n) code globals
  declaration : rest = [] ∨ ∃ o, rest = [o] ∧ IsReturnDeclaration n o
  bodyless : ∀ o ∈ rest, n.entryBlock? o = none
  functions : ∀ c ∈ sites, ∀ s ∈ c.functions, n.kind s.id = .llvm .func ∧
    n.symName? s.id = some s.code.name ∧ n.signature? s.id = some s.code.signature
  generated : ∀ o ∈ added, IsGenerated n o
  new : ∀ o ∈ code ++ rest ++ added, m.ops.size ≤ o.index
  declares : ∀ x, (∃ o ∈ code ++ rest ++ added, n.symName? o = some x) ↔
    Generated (contracts.map Contract.name) x ∧ x ∉ contracts.map Contract.name
  splits : SplitsOnce (entryName ∈ contracts.map Contract.name) (contracts.map Contract.name)

section Legalized

variable {source : Source} {contracts : List Contract} {sites : List ContractSite}

variable {globals : List Global} {code rest added : List OpId}

/-- What is new in the body is low-level, so it stays as it is. -/
theorem Arranged.sameOp {become : OpId → List OpId}
    (h : Arranged m p sites globals code rest added) (hlifts : Lifts p q)
    (hreworks : Reworks q n become) {o : OpId} (ho : o ∈ code ++ rest ++ added) :
    p.SameOp n o := by
  obtain ⟨hlt, hdialect⟩ := h.dialect_eq ho
  refine (hlifts.retains.ops o hlt).trans (hreworks.sameOp (by rwa [hlifts.size_ops]) ?_)
  rw [hlifts.kind_eq]
  exact hdialect

/-- A function of a contract is a low-level one with its name and signature, when it was moved and
everything was converted. -/
theorem Arranged.function_eq {become : OpId → List OpId}
    (h : Arranged m p sites globals code rest added) (hlayout : Layout source contracts sites m)
    (hlifts : Lifts p q) (hreworks : Reworks q n become) {c : ContractSite} (hc : c ∈ sites)
    {s : FunctionSite} (hs : s ∈ c.functions) (hdialect : (n.kind s.id).dialect = .llvm) :
    n.kind s.id = .llvm .func ∧ n.symName? s.id = some s.code.name ∧
      n.signature? s.id = some s.code.signature := by
  obtain ⟨hin, -⟩ := (hlayout.sites c hc).functions s hs
  have hplt : s.id.index < p.ops.size := Nat.lt_of_lt_of_le hin.id_lt h.grown.size_ops
  have hsame : m.SameOp q s.id :=
    (Module.SameOp.of_eq (h.grown.ops _ hin.id_lt)).trans (hlifts.retains.ops _ hplt)
  have hkind : q.kind s.id = .func .func := hsame.kind_eq.trans hin.kind_eq
  refine function_of_lowForm hkind (hsame.symName?_eq.trans hin.symName?_eq) ?_
    (hreworks.code _ (by rwa [hlifts.size_ops]) (by rw [hkind]; nofun)).2 hdialect
  rw [Module.signature?, hsame.attr?_eq]
  exact hin.signature?_eq

/-- **The names of what is new in the body** are those that are generated and that no contract has.

**Proof sketch.** A declared name belongs to a contract or is generated; the operation that
declares it is new, for the contracts are old, and no other operation has its name. -/
theorem Arranged.name_iff {env : Env} {contexts : Contexts}
    (h : Arranged m p sites globals code rest added) (hlayout : Layout source contracts sites m)
    (hp : Sealed env contexts (sites.map ContractSite.id) sites p)
    (hdeclared : ∀ x, p.Declared x ↔
      x ∈ contracts.map Contract.name ∨ Generated (contracts.map Contract.name) x) (x : String) :
    (∃ o ∈ code ++ rest ++ added, p.symName? o = some x) ↔
      Generated (contracts.map Contract.name) x ∧ x ∉ contracts.map Contract.name := by
  constructor
  · rintro ⟨o, ho, hname⟩
    have hdeclares : p.Declares x o := by
      refine ⟨?_, hname⟩
      rw [h.listed]
      simp only [List.mem_append] at ho ⊢
      exact ho.imp_left .inl
    -- a contract of that name would be the new operation
    have hfree : x ∉ contracts.map Contract.name := by
      rw [← names_sites hlayout]
      intro hx
      obtain ⟨c, hc, rfl⟩ := List.mem_map.1 hx
      have hstands : p.Declares c.name c.id := by
        refine ⟨?_, (hp.standing c hc).name⟩
        rw [h.listed]
        simp only [List.mem_append, List.mem_map]
        exact .inl (.inr ⟨c, hc, rfl⟩)
      obtain rfl := hp.top.eq_of_declares hstands hdeclares
      exact Nat.not_lt.2 (h.new _ ho) (hlayout.sites c hc).id_lt
    exact ⟨((hdeclared x).1 ⟨o, hdeclares⟩).resolve_left hfree, hfree⟩
  · rintro ⟨hx, hfree⟩
    obtain ⟨o, ho, hname⟩ := (hdeclared x).2 (.inr hx)
    refine ⟨o, ?_, hname⟩
    rw [h.listed] at ho
    simp only [List.mem_append, List.mem_map] at ho ⊢
    rcases ho with (ho | ⟨c, hc, rfl⟩) | ho
    · exact .inl ho
    · rw [(hp.standing c hc).name] at hname
      refine absurd ?_ hfree
      rw [← names_sites hlayout, ← Option.some.inj hname]
      exact List.mem_map_of_mem hc
    · exact .inr ho

/-- **What the body of a legalized module lists.**

**Proof sketch.** The three stages in order: the split arranges the body
(`arranged_of_lowerContainers`), hoisting puts functions in the place of their contracts
(`hoisted`), and the conversion keeps what is listed.  What was new before keeps its form through
the later stages. -/
theorem exists_inventory (h : lowerContracts source contracts = .ok m)
    (hlayout : Layout source contracts sites m) {stats : Conversion.Stats}
    (hlegal : legalize.run m = .ok stats n) :
    ∃ globals code rest added, Inventory m n contracts sites globals code rest added := by
  obtain ⟨p, q, count, hlower, hhoist, hconvert, hverify⟩ := steps_of_legalize hlegal
  obtain ⟨hsplits, env, -, hp, -, hdeclared⟩ := (decides_lowerContainers h hlayout).of_ok hlower
  obtain ⟨-, hq, -⟩ := (decides_hoist hp).of_ok hhoist
  obtain ⟨stats', n', hconvert', hconverts, hnone⟩ := exists_convert hq
  obtain ⟨rfl, rfl⟩ := EStateM.Result.ok.inj (hconvert.symm.trans hconvert')
  have hm := (splitting_of_layout h hlayout env).typed.toLinked
  obtain ⟨globals, code, rest, added, harranged⟩ := arranged_of_lowerContainers hm hlayout hlower
  obtain ⟨hlifts, hlisted⟩ := lifts_of_hoist harranged.linked hhoist
  obtain ⟨hn, -, become, hreworks, -⟩ := reworks_of_convert hlifts.linked hconvert
  have htop : (n.block ⟨0⟩).ops =
      code ++ rest ++ (sites.flatMap fun c => c.functions.map FunctionSite.id) ++ added := by
    rw [hp.top.bodyBlock_eq, harranged.hoisted hlayout hp] at hlisted
    rw [hreworks.listed, ← hlisted, List.flatMap_congr fun o ho => ?_]
    · exact List.flatMap_singleton' _
    · refine (hreworks.code o (hlifts.linked.ops_lt ho) fun hkind => ?_).1
      have hsymbol := hq.top.symbols o ho
      rw [hkind] at hsymbol
      cases hsymbol
  have hlow : ∀ o ∈ (n.block ⟨0⟩).ops, (n.kind o).dialect = .llvm := by
    intro o ho
    by_contra hdialect
    refine hnone o ⟨hn.isAttached_iff.2 ⟨o, ⟨⟨0⟩, ?_, ho⟩, .refl⟩, hdialect⟩
    simp [hconverts.sealed.top.body]
  have hsame : ∀ o ∈ code ++ rest ++ added, p.SameOp n o := fun o ho =>
    harranged.sameOp hlifts hreworks ho
  refine ⟨globals, code, rest, added, hn, hverify, hconverts.sealed.top,
    fun o ho => hconverts.sealed.lookup?_eq ho, htop, harranged.sublist, ?_, ?_, fun o ho => ?_,
    fun c hc s hs => harranged.function_eq hlayout hlifts hreworks hc hs (hlow s.id ?_),
    fun o ho => ?_, harranged.new, fun x => ?_, hsplits⟩
  · have hboth := (List.forall₂_and_left _ _).2
      ⟨fun o ho => hsame o (by simp [ho]), harranged.globals⟩
    exact hboth.imp fun o g hg => hg.2.congr hg.1
  · rcases harranged.declaration with hrest | ⟨o, hrest, ho⟩
    · exact .inl hrest
    · exact .inr ⟨o, hrest, ho.congr (hsame o (by simp [hrest]))⟩
  · obtain ⟨hlt, hdialect⟩ := harranged.dialect_eq (o := o) (by simp [ho])
    have hsame' := hreworks.sameOp (by rwa [hlifts.size_ops])
      (by rw [hlifts.kind_eq]; exact hdialect)
    rw [hreworks.entryBlock?_eq hlifts.linked hsame'.regions_eq,
      hlifts.retains.entryBlock?_eq harranged.linked hlt]
    exact harranged.bodyless o ho
  · rw [htop]
    simp only [List.mem_append, List.mem_flatMap, List.mem_map]
    exact .inl (.inr ⟨c, hc, s, hs, rfl⟩)
  · have hlt := (harranged.dialect_eq (o := o) (by simp [ho])).1
    exact ((harranged.generated o ho).of_lifts harranged.linked
      (hasBody_of_extends hlayout harranged.grown) hlt hlifts).of_reworks hlifts.linked
      (by rwa [hlifts.size_ops]) hreworks
  · rw [← harranged.name_iff hlayout hp hdeclared x]
    exact exists_congr fun o => and_congr_right fun ho => by rw [(hsame o ho).symName?_eq]

/-- What is new in the body of a legalized module: everything but the functions of contracts. -/
theorem Inventory.mem_new_iff (h : Inventory m n contracts sites globals code rest added)
    (hlayout : Layout source contracts sites m) {o : OpId} :
    o ∈ code ++ rest ++ added ↔ o ∈ (n.block ⟨0⟩).ops ∧ m.ops.size ≤ o.index := by
  rw [h.listed]
  constructor
  · intro ho
    refine ⟨?_, h.new o ho⟩
    simp only [List.mem_append] at ho ⊢
    exact ho.imp_left .inl
  · rintro ⟨ho, hnew⟩
    simp only [List.mem_append, List.mem_flatMap, List.mem_map] at ho ⊢
    rcases ho with (ho | ⟨c, hc, s, hs, rfl⟩) | ho
    · exact .inl ho
    · exact absurd ((hlayout.sites c hc).functions s hs).1.id_lt (Nat.not_lt.2 hnew)
    · exact .inr ho

/-- What is new in the body goes by the name of a global and is that global, goes by the name of the
return function and is its declaration, or is generated. -/
theorem Inventory.new_cases (h : Inventory m n contracts sites globals code rest added) {o : OpId}
    (ho : o ∈ code ++ rest ++ added) :
    (∃ g ∈ globals, n.symName? o = some g.name ∧ o ∈ code ∧ IsGlobal n o g) ∨
      n.symName? o = some returnName ∧ rest = [o] ∧ IsReturnDeclaration n o ∨
      o ∈ added ∧ IsGenerated n o := by
  simp only [List.mem_append] at ho
  rcases ho with (ho | ho) | ho
  · obtain ⟨g, hg, hglobal⟩ := Outcome.exists_right h.globals ho
    exact .inl ⟨g, hg, hglobal.symName?, ho, hglobal⟩
  · rcases h.declaration with rfl | ⟨p, rfl, hreturn⟩
    · cases ho
    · obtain rfl := List.mem_singleton.1 ho
      exact .inr (.inl ⟨hreturn.symName?, rfl, hreturn⟩)
  · exact .inr (.inr ⟨ho, h.generated o ho⟩)

end Legalized

end EraVM

end ContractIR
