import ContractIR.Proofs.Legalization.Sealing
import ContractIR.Proofs.Typing.Moves

/-!
# Hoisting decides

The functions of a container move to the body one after the other, and the container is dropped.
A function moves if its name is not declared at that moment: by what was generated, by a function
that moved before, or by a container that is still there.  Nothing else can go wrong.

## Main definitions

* `ContractIR.EraVM.Provides` — the body declares a name by something that serves.
* `ContractIR.EraVM.Moved` — some operations were moved to the body.
* `ContractIR.EraVM.Hoistable` — the functions of some containers find their names free.

## Main results

* `ContractIR.EraVM.exists_moveBefore`, `exists_eraseContainer` — one function, one container.
* `ContractIR.EraVM.decides_hoistFunctions`, `decides_hoist` — when functions are moved.
-/

set_option autoImplicit false

namespace ContractIR.EraVM

variable {env : Env} {contexts : Contexts} {containers : List OpId} {sites : List ContractSite}
  {m n p : Module}

/-! ## What stays -/

/-- The body declares a name by something that serves and is no container. -/
def Provides (m : Module) (x : String) : Prop :=
  ∃ j, m.Declares x j ∧ (m.kind j).isContainer = false ∧ Serves m x j

/-- The name by which an operation goes; nothing but a symbol has one. -/
def nameOf (m : Module) (o : OpId) : String := (m.symName? o).getD ""

/-- Some operations moved to the body; nothing else of any operation changed. -/
structure Moved (m n : Module) (ids : List OpId) : Prop where
  op : ∀ o, n.op o =
    { m.op o with parent := if o ∈ ids then some ⟨0⟩ else (m.op o).parent }
  parent : ∀ b, (n.block b).parent = (m.block b).parent
  region : ∀ r, n.region r = m.region r

namespace Moved

variable {ids more : List OpId}

/-- Nothing moved. -/
theorem refl (m : Module) : Moved m m [] where
  op o := by simp
  parent _ := rfl
  region _ := rfl

/-- Some operations moved, and then some more. -/
theorem trans (h : Moved m n ids) (k : Moved n p more) : Moved m p (ids ++ more) where
  op o := by
    rw [k.op, h.op]
    simp only [List.mem_append]
    split <;> split <;> simp_all
  parent b := (k.parent b).trans (h.parent b)
  region r := (k.region r).trans (h.region r)

/-- Operations are of the same kind. -/
theorem kind_eq (h : Moved m n ids) (o : OpId) : n.kind o = m.kind o := by
  rw [Module.kind, h.op]
  rfl

/-- Operations have the same names. -/
theorem symName?_eq (h : Moved m n ids) (o : OpId) : n.symName? o = m.symName? o := by
  rw [Module.symName?, Module.attr?, h.op]
  rfl

/-- Operations that did not move have the same operation around them. -/
theorem parentOp?_eq (h : Moved m n ids) {o : OpId} (ho : o ∉ ids) :
    n.parentOp? o = m.parentOp? o := by
  rw [Module.parentOp?, h.op, if_neg ho]
  simp only [h.parent, h.region]
  rfl

/-- Nothing is around an operation that moved. -/
theorem parentOp?_eq_none (h : Moved m n ids) (hm : Staged env containers m) {o : OpId}
    (ho : o ∈ ids) : n.parentOp? o = none := by
  rw [Module.parentOp?, h.op, if_pos ho]
  simp only [Option.bind_some, h.parent, h.region]
  exact (Module.owner?_body hm.typed.toLinked hm.top.body).2

/-- What the body declares afterwards. -/
theorem declares_iff (h : Moved m n ids) (hm : m.Linked) (hn : n.Linked) {x : String} {j : OpId} :
    n.Declares x j ↔ m.Declares x j ∨ j ∈ ids ∧ m.symName? j = some x := by
  rw [Module.Declares, Module.Declares, ← hn.op_parent, ← hm.op_parent, h.symName?_eq, h.op]
  by_cases hj : j ∈ ids <;> simp [hj]

/-- The names that the body declares afterwards. -/
theorem declared_iff (h : Moved m n ids) (hm : m.Linked) (hn : n.Linked)
    (hids : ∀ o ∈ ids, ∃ x, m.symName? o = some x) {x : String} :
    n.Declared x ↔ m.Declared x ∨ x ∈ ids.map (nameOf m) := by
  simp only [Module.Declared, h.declares_iff hm hn, exists_or, List.mem_map]
  refine or_congr_right (exists_congr fun o => and_congr_right fun ho => ?_)
  obtain ⟨y, hy⟩ := hids o ho
  simp [nameOf, hy]

/-- What serves goes on to serve. -/
theorem serves (h : Moved m n ids) {x : String} {j : OpId} (hj : Serves m x j) : Serves n x j := by
  have hsignature : n.signature? j = m.signature? j := by
    rw [Module.signature?, Module.attr?, h.op]
    rfl
  refine ⟨fun s hs => ?_, fun g hg => (h.kind_eq j).trans (hj.global g hg)⟩
  rw [h.kind_eq, hsignature]
  exact hj.signature s hs

/-- What is provided stays. -/
theorem provides (h : Moved m n ids) (hm : m.Linked) (hn : n.Linked) {x : String}
    (hx : Provides m x) : Provides n x := by
  obtain ⟨j, hj, hcontainer, hserves⟩ := hx
  exact ⟨j, (h.declares_iff hm hn).2 (.inl hj), by rw [h.kind_eq, hcontainer], h.serves hserves⟩

/-- Contracts from which nothing moved stand as they stood. -/
theorem standing (h : Moved m n ids) (hm : Staged env containers m) {c : ContractSite}
    (hc : Standing m c) (hids : ∀ o ∈ ids, m.parentOp? o ≠ some c.id) : Standing n c := by
  refine ⟨by rw [h.op]; exact hc.regions, fun o => ?_, hc.nodup, fun s hs => ?_, ?_⟩
  · rw [← hc.functions, h.kind_eq]
    by_cases ho : o ∈ ids
    · rw [h.parentOp?_eq_none hm ho]
      simp [hids o ho]
    · rw [h.parentOp?_eq ho]
  · rw [h.symName?_eq, hc.names s hs]
  · rw [h.symName?_eq, hc.name]

end Moved

/-! ## Functions -/

section Move

variable {o : OpId} {b : BlockId}

/-- Moving an operation from a block to the body changes nothing else of any operation. -/
theorem moved_insertOp (hb : (m.op o).parent = some b) (index : Option Nat) :
    Moved m ((m.detachOp o).insertOp ⟨0⟩ index o) [o] := by
  refine ⟨fun j => ?_, fun x => ?_, fun r => by simp⟩
  · simp only [Module.op_insertOp, Module.op_detachOp, Module.size_ops_detachOp,
      List.mem_singleton]
    by_cases hj : j = o
    · simp [hj, Module.op_lt_of_parent hb]
    · simp [hj]
  · simp only [Module.block_insertOp, Module.block_detachOp]
    split <;> split <;> rfl

/-- Other blocks list what they listed. -/
theorem block_move_of_ne (hb : (m.op o).parent = some b) (index : Option Nat) {y : BlockId}
    (hyb : y ≠ b) (hy : y ≠ ⟨0⟩) :
    ((m.detachOp o).insertOp ⟨0⟩ index o).block y = m.block y := by
  rw [Module.block_insertOp, if_neg (fun hy' => hy hy'.1), Module.block_detachOp, if_neg]
  rintro ⟨heq, -⟩
  exact hyb (Option.some.inj (heq.symm.trans hb))

/-- A function that moves to the body joins it. -/
theorem joins_move (hb : (m.op o).parent = some b) (hne : b ≠ ⟨0⟩) (hlt : 0 < m.blocks.size)
    (hfunction : (m.kind o).isFunction = true) {x : String} (hx : m.symName? o = some x)
    (index : Option Nat) : Module.Joins m ((m.detachOp o).insertOp ⟨0⟩ index o) o x := by
  have hmoved := moved_insertOp hb index
  have htop : (m.detachOp o).block ⟨0⟩ = m.block ⟨0⟩ := by
    rw [Module.block_detachOp, if_neg]
    rintro ⟨heq, -⟩
    exact hne (Option.some.inj (hb.symm.trans heq))
  exact
    { body := hmoved.region _
      ops := ⟨index, by rw [Module.block_insertOp, if_pos ⟨rfl, by simpa using hlt⟩, htop]⟩
      old := fun j _ => ⟨hmoved.kind_eq j, hmoved.symName?_eq j⟩
      isSymbol := by rw [hmoved.kind_eq, OpKind.isSymbol, hfunction]; rfl
      isContainer := by rw [hmoved.kind_eq, OpKind.isContainer_of_isFunction hfunction]
      name := by rw [hmoved.symName?_eq, hx] }

end Move

/-- A function of a container moves to the place before the container.

**Proof sketch.** The function leaves its container and joins the symbols of the body
(`joins_move`), where its name is free.  The blocks of functions keep their lists, because neither
the body nor the block of the container belongs to one. -/
theorem exists_moveBefore (h : Sealed env contexts containers sites m) {k o : OpId}
    (hk : (m.op k).parent = some ⟨0⟩) (hfunction : (m.kind o).isFunction = true)
    (hup : m.parentOp? o = some k) (hsites : ∀ c ∈ sites, c.id ≠ k) {x : String}
    (hx : m.symName? o = some x) (hfree : ¬m.Declared x) :
    ∃ n, (Module.moveBefore o k).run m = .ok () n ∧ Sealed env contexts containers sites n ∧
      Moved m n [o] := by
  obtain ⟨b, hb, howner⟩ := Module.up_iff.1 hup
  obtain ⟨hlt, hbody⟩ := Module.owner?_body h.typed.toLinked h.top.body
  have hne : b ≠ ⟨0⟩ := by
    rintro rfl
    cases hbody.symm.trans howner
  have hsymbol : (m.kind o).isSymbol = true := by rw [OpKind.isSymbol, hfunction]; rfl
  have hcontainer := (h.typed.typed o b hb).isContainer_of_up hfunction hup
  have hmoved := moved_insertOp hb ((m.detachOp o).indexOf? k)
  refine ⟨_, by rw [Module.run_moveBefore, hk],
    { toStaged := h.toStaged.of_joins (h.typed.move hb hsymbol h.top.body hne _)
        (joins_move hb hne hlt hfunction hx _) hfree
      ended := ?_
      returning := fun f hf => by
        rw [hmoved.kind_eq]
        simpa using h.returning f hf
      standing := fun c hc => hmoved.standing h.toStaged (h.standing c hc) fun j hj => ?_ }, hmoved⟩
  · refine h.ended.congr (by simp) (fun b => ?_) (fun j => by rw [hmoved.kind_eq])
      fun y hy => ?_
    · rw [Module.owner?, hmoved.parent, hmoved.region]
      rfl
    -- neither the body nor the block of the container belongs to a function
    · obtain ⟨-, f, hf, hkind⟩ := hy
      have hyb : y ≠ b := by
        rintro rfl
        obtain rfl := Option.some.inj (hf.symm.trans howner)
        rw [OpKind.isContainer_of_isFunction hkind] at hcontainer
        cases hcontainer
      have hy0 : y ≠ ⟨0⟩ := by
        rintro rfl
        cases hf.symm.trans hbody
      rw [block_move_of_ne hb _ hyb hy0]
  · obtain rfl := List.mem_singleton.1 hj
    rw [hup]
    exact fun heq => hsites c hc (Option.some.inj heq).symm

/-- **When functions are moved** out of a container: if their names are distinct and free.

**Proof sketch.** Induction along the functions; a function that moved takes its name. -/
theorem decides_hoistFunctions (h : Sealed env contexts containers sites m) {k : OpId}
    (hk : (m.op k).parent = some ⟨0⟩) (hsites : ∀ c ∈ sites, c.id ≠ k) {ids : List OpId}
    (hids : ∀ o ∈ ids, (m.kind o).isFunction = true ∧ m.parentOp? o = some k)
    (hnodup : ids.Nodup) :
    Decides (hoistFunctions k ids) m
      ((ids.map (nameOf m)).Nodup ∧ ∀ x ∈ ids.map (nameOf m), ¬m.Declared x)
      fun _ n => Sealed env contexts containers sites n ∧ Moved m n ids := by
  induction ids generalizing m with
  | nil => exact (Decides.of_run rfl ⟨h, .refl m⟩).congr (by simp) fun _ _ h => h
  | cons o ids ih =>
    obtain ⟨hfunction, hup⟩ := hids o (.head _)
    obtain ⟨b, hb, -⟩ := Module.up_iff.1 hup
    have hsymbol : (m.kind o).isSymbol = true := by rw [OpKind.isSymbol, hfunction]; rfl
    obtain ⟨x, hx⟩ := (h.typed.typed o b hb).exists_name hsymbol
    have hname : nameOf m o = x := by rw [nameOf, hx]; rfl
    rw [hoistFunctions]
    refine .of_run_bind (x := get) rfl ?_
    by_cases hdeclared : m.Declared x
    · have hsome := h.top.isSome_lookupTop?_iff.2 hdeclared
      refine .fails (if isReserved x then .reservedName x else .nameClash x) (m.op o).location m
        (fun hfree => ?_) ?_
      · exact hfree.2 x (by simp [hname]) hdeclared
      · simp only [hx, Option.getD_some, hsome, ↓reduceIte]
        rfl
    · have hnone : (m.lookupTop? x).isSome = false := by
        rw [h.top.lookupTop?_eq_none_iff.2 hdeclared]
        rfl
      obtain ⟨n, hrun, hn, hmoved⟩ := exists_moveBefore h hk hfunction hup hsites hx hdeclared
      have hnotin : o ∉ ids := (List.nodup_cons.1 hnodup).1
      have hkids : ∀ j ∈ ids, j ∉ [o] := by
        rintro j hj hjo
        exact hnotin (List.mem_singleton.1 hjo ▸ hj)
      have hko : k ≠ o := by
        rintro rfl
        rw [hk] at hb
        obtain rfl := Option.some.inj hb
        cases hup.symm.trans ((Module.parentOp?_eq_owner? hk).trans
          (Module.owner?_body h.typed.toLinked h.top.body).2)
      have hnames : ids.map (nameOf n) = ids.map (nameOf m) :=
        List.map_congr_left fun j _ => by rw [nameOf, hmoved.symName?_eq]; rfl
      have hdeclares : ∀ y, n.Declared y ↔ m.Declared y ∨ y = x := by
        intro y
        rw [hmoved.declared_iff h.typed.toLinked hn.typed.toLinked (by simpa using ⟨x, hx⟩)]
        simp [hname]
      simp only [hx, Option.getD_some, hnone, Bool.false_eq_true, ↓reduceIte]
      refine .of_run_bind (run_liftM_eq_ok.2 hrun) ?_
      have hstep := ih hn (by rw [hmoved.op, if_neg (by simpa using hko)]; exact hk)
        (fun j hj => ⟨by rw [hmoved.kind_eq]; exact (hids j (.tail _ hj)).1,
          by rw [hmoved.parentOp?_eq (hkids j hj)]; exact (hids j (.tail _ hj)).2⟩)
        (List.nodup_cons.1 hnodup).2
      refine (hstep.bind (R := True) fun count p hp => .of_run rfl ?_).congr ?_ fun _ _ h => h
      · exact ⟨hp.1, hmoved.trans hp.2⟩
      · rw [hnames, and_true, List.map_cons, List.nodup_cons, hname]
        simp only [hdeclares, List.mem_cons, forall_eq_or_imp, hdeclared, not_false_eq_true,
          true_and, not_or]
        grind

/-! ## Containers -/

/-- Other operations have around them what they had when one is dropped. -/
theorem parentOp?_detachOp {k o : OpId} (ho : o ≠ k) :
    (m.detachOp k).parentOp? o = m.parentOp? o := by
  simp only [Module.parentOp?, Module.op_detachOp, if_neg ho, Module.region_detachOp,
    Module.block_detachOp]
  congr 1
  funext b
  split <;> rfl

/-- The functions of a contract stand where they stood when a container is dropped. -/
theorem Standing.detachOp {c : ContractSite} (h : Standing m c) {k : OpId}
    (hk : (m.kind k).isContainer = true) : Standing (m.detachOp k) c := by
  refine ⟨?_, fun o => ?_, h.nodup, fun s hs => ?_, ?_⟩
  · rw [Module.op_detachOp]
    split <;> exact h.regions
  · rw [← h.functions, Module.kind_detachOp]
    refine and_congr_right fun hfunction => ?_
    rw [parentOp?_detachOp]
    rintro rfl
    rw [OpKind.isContainer_of_isFunction hfunction] at hk
    cases hk
  · rw [Module.symName?_detachOp, h.names s hs]
  · rw [Module.symName?_detachOp, h.name]

/-- What is provided stays when a container of the body is dropped. -/
theorem Provides.detachOp {y : String} (h : Provides m y) {k : OpId}
    (hparent : (m.op k).parent = some ⟨0⟩) (hlt : 0 < m.blocks.size)
    (hk : (m.kind k).isContainer = true) : Provides (m.detachOp k) y := by
  obtain ⟨j, hj, hcontainer, hserves⟩ := h
  have hne : j ≠ k := by
    rintro rfl
    rw [hk] at hcontainer
    cases hcontainer
  refine ⟨j, (Module.declares_detachOp_iff hparent hlt).2 ⟨hj, hne⟩,
    by rw [Module.kind_detachOp, hcontainer], hserves.congr ?_⟩
  rw [Module.op_detachOp, if_neg hne]

/-- The body declares one name less when a symbol is dropped. -/
theorem declared_detachOp_iff (hm : m.TopLevel) {k : OpId} {x : String} (hk : m.Declares x k)
    (hparent : (m.op k).parent = some ⟨0⟩) (hlt : 0 < m.blocks.size) {y : String} :
    (m.detachOp k).Declared y ↔ m.Declared y ∧ y ≠ x := by
  constructor
  · rintro ⟨j, hj⟩
    obtain ⟨hj, hne⟩ := (Module.declares_detachOp_iff hparent hlt).1 hj
    refine ⟨⟨j, hj⟩, ?_⟩
    rintro rfl
    exact hne (hm.eq_of_declares hj hk)
  · rintro ⟨⟨j, hj⟩, hne⟩
    refine ⟨j, (Module.declares_detachOp_iff hparent hlt).2 ⟨hj, ?_⟩⟩
    rintro rfl
    exact hne (Option.some.inj (hj.2.symm.trans hk.2))

/-- A container without functions is dropped.

**Proof sketch.** The container has no results, so it may be erased (`run_eraseOp`), and is the
first of those that are left.  Functions and their blocks stay, since the body belongs to no
function. -/
theorem exists_eraseContainer {k : OpId} (h : Sealed env contexts (k :: containers) sites m)
    {x : String} (hx : m.symName? k = some x) :
    ∃ n, (Module.eraseOp k).run m = .ok () n ∧ Sealed env contexts containers sites n ∧
      (∀ y, n.Declared y ↔ m.Declared y ∧ y ≠ x) ∧ ∀ y, Provides m y → Provides n y := by
  have hmem : k ∈ (m.block ⟨0⟩).ops ∧ (m.kind k).isContainer = true := by
    have hhead : k ∈ k :: containers := .head _
    rw [← h.containers, List.mem_filter] at hhead
    exact hhead
  obtain ⟨hlt, hbody⟩ := Module.owner?_body h.typed.toLinked h.top.body
  have hparent : (m.op k).parent = some ⟨0⟩ := (h.typed.op_parent k ⟨0⟩).2 hmem.1
  have hresults : (m.op k).results = [] := by
    refine ((h.typed.typed k _ hparent).of_isSymbol ?_).2
    simp [OpKind.isSymbol, hmem.2]
  refine ⟨m.detachOp k, h.typed.run_eraseOp hresults,
    { typed := h.typed.detachOp hresults
      top := h.top.detachOp k
      containers := ?_
      ended := ?_
      returning := fun f hf => by
        rw [Module.kind_detachOp]
        simpa using h.returning f hf
      standing := fun c hc => (h.standing c hc).detachOp hmem.2 },
    fun y => declared_detachOp_iff h.top ⟨hmem.1, hx⟩ hparent hlt,
    fun y hy => hy.detachOp hparent hlt hmem.2⟩
  · have hnodup : (k :: containers).Nodup := h.containers ▸ (h.typed.ops_nodup _).filter _
    rw [Module.block_detachOp, if_pos ⟨hparent, hlt⟩]
    simp only [Module.kind_detachOp, List.filter_filter, Bool.and_comm _ (decide _)]
    rw [← List.filter_filter, h.containers, List.filter_cons_of_neg (by simp),
      List.filter_eq_self.2]
    intro j hj
    simp only [decide_eq_true_eq]
    rintro rfl
    exact (List.nodup_cons.1 hnodup).1 hj
  · refine h.ended.congr (by simp) (fun b => ?_) (fun o => by rw [Module.kind_detachOp])
      fun b hb => ?_
    · simp only [Module.owner?, Module.region_detachOp, Module.block_detachOp]
      split <;> rfl
    -- the body belongs to no function
    · obtain ⟨-, f, hf, -⟩ := hb
      rw [Module.block_detachOp, if_neg]
      rintro ⟨heq, -⟩
      obtain rfl := Option.some.inj (hparent.symm.trans heq)
      cases hf.symm.trans hbody

/-- The functions that a walk over a contract meets are those of its site.

**Proof sketch.** Neither list repeats anything, so it is enough that they have the same members:
a function inside the contract stands directly in it, because functions stand in containers and
nothing is around the contract. -/
theorem perm_functions (h : Sealed env contexts containers sites m) {c : ContractSite}
    (hc : Standing m c) (hcontainer : (m.kind c.id).isContainer = true) :
    ((m.walkOp c.id).filter fun o => (m.kind o).isFunction).Perm
      (c.functions.map FunctionSite.id) := by
  have hlinked := h.typed.toLinked
  have hnot : ∀ {o}, (m.kind o).isFunction = true → (m.kind o).isContainer ≠ true := fun ho => by
    simp [OpKind.isContainer_of_isFunction ho]
  have hnodup : ((m.walkOp c.id).filter fun o => (m.kind o).isFunction).Nodup := by
    have hid : (m.kind c.id).isFunction = false := by
      rw [← Bool.not_eq_true]
      exact fun ho => hnot ho hcontainer
    rw [Module.walkOp, hc.regions, List.filter_cons_of_neg (by simp [hid])]
    simpa using (hlinked.nodup_walkRegion _ c.region).filter _
  refine (List.perm_ext_iff_of_nodup hnodup hc.nodup).2 fun o => ?_
  rw [List.mem_filter, hlinked.mem_walkOp_iff, ← hc.functions, and_comm]
  refine and_congr_right fun hfunction => ⟨fun hinside => ?_, fun hup => .single hup⟩
  rcases Relation.ReflTransGen.cases_head hinside with rfl | ⟨k, hup, hk⟩
  · exact absurd hcontainer (hnot hfunction)
  · rcases Relation.ReflTransGen.cases_head hk with rfl | ⟨k', hup', -⟩
    · exact hup
    -- a function stands in a container, and nothing is around a container
    · obtain ⟨b, hb, -⟩ := Module.up_iff.1 hup
      obtain ⟨b', hb', -⟩ := Module.up_iff.1 hup'
      have hk := (h.typed.typed o b hb).isContainer_of_up hfunction hup
      cases ((h.typed.typed k b' hb').parentOp?_of_isContainer hk).symm.trans hup'

/-- The functions of some containers, given with their names, find their names free when they move
to the body container by container, each of which is dropped before the next one. -/
def Hoistable (declared : String → Prop) : List (String × List String) → Prop
  | [] => True
  | (k, fs) :: rest => (fs.Nodup ∧ ∀ x ∈ fs, ¬declared x) ∧
      Hoistable (fun x => (declared x ∨ x ∈ fs) ∧ x ≠ k) rest

/-- The name of a contract and those of its functions. -/
def siteNames (c : ContractSite) : String × List String :=
  (c.name, c.functions.map fun s => s.code.name)

/-- **When functions are moved** out of all containers.

**Proof sketch.** Induction along the containers; what was moved out of one of them is what the
next one finds declared, and the container itself is gone. -/
theorem decides_hoistFrom (h : Sealed env contexts (sites.map ContractSite.id) sites m) :
    Decides (hoistFrom (sites.map ContractSite.id)) m
      (Hoistable m.Declared (sites.map siteNames)) fun _ n =>
        Sealed env contexts [] [] n ∧ ∀ x, Provides m x → Provides n x := by
  induction sites generalizing m with
  | nil => exact .of_run rfl ⟨h, fun _ hx => hx⟩
  | cons c sites ih =>
    have hhead : c.id ∈ (c :: sites).map ContractSite.id := List.mem_cons_self
    rw [← h.containers, List.mem_filter] at hhead
    obtain ⟨hmem, hcontainer⟩ := hhead
    have hnodup : ((c :: sites).map ContractSite.id).Nodup :=
      h.containers ▸ (h.typed.ops_nodup _).filter _
    have hsites : ∀ d ∈ sites, d.id ≠ c.id := fun d hd heq =>
      (List.nodup_cons.1 hnodup).1 (List.mem_map.2 ⟨d, hd, heq⟩)
    have hstanding := h.standing c (.head _)
    have hsealed : Sealed env contexts (c.id :: sites.map ContractSite.id) sites m :=
      { h with standing := fun d hd => h.standing d (.tail _ hd) }
    have hperm := perm_functions h hstanding hcontainer
    generalize hids : ((m.walkOp c.id).filter fun o => (m.kind o).isFunction) = ids at hperm
    have hnames : (ids.map (nameOf m)).Perm (siteNames c).2 := by
      have hsame : (c.functions.map FunctionSite.id).map (nameOf m) = (siteNames c).2 := by
        rw [List.map_map]
        exact List.map_congr_left fun s hs => by
          simp only [Function.comp, nameOf, hstanding.names s hs, Option.getD_some]
      exact hsame ▸ hperm.map _
    have hmoves := decides_hoistFunctions hsealed ((h.typed.op_parent _ _).2 hmem) hsites
      (fun o ho => (hstanding.functions o).2 (hperm.subset ho)) (hperm.nodup_iff.2 hstanding.nodup)
    rw [List.map_cons, hoistFrom]
    refine .of_run_bind (x := get) rfl ?_
    simp only [hids]
    refine (hmoves.bind (R := Hoistable (fun x => (m.Declared x ∨ x ∈ (siteNames c).2) ∧ x ≠ c.name)
      (sites.map siteNames)) fun count n hn => ?_).congr ?_ fun _ _ h => h
    · obtain ⟨hn, hmoved⟩ := hn
      obtain ⟨p, hrun, hp, hdeclared, hprovides⟩ := exists_eraseContainer hn
        ((hmoved.symName?_eq c.id).trans hstanding.name)
      have hfinal : ∀ x, p.Declared x ↔ (m.Declared x ∨ x ∈ (siteNames c).2) ∧ x ≠ c.name := by
        intro x
        rw [hdeclared, ← hnames.mem_iff, hmoved.declared_iff h.typed.toLinked hn.typed.toLinked ?_]
        intro o ho
        have hup := ((hstanding.functions o).2 (hperm.subset ho))
        obtain ⟨b, hb, -⟩ := Module.up_iff.1 hup.2
        exact (h.typed.typed o b hb).exists_name (by simp [OpKind.isSymbol, hup.1])
      refine .of_run_bind (run_liftM_eq_ok.2 hrun) ?_
      refine ((ih hp).bind (R := True) fun more q hq => .of_run rfl ?_).congr ?_ fun _ _ h => h
      · refine ⟨hq.1, fun x hx => hq.2 x (hprovides x ?_)⟩
        exact hmoved.provides h.typed.toLinked hn.typed.toLinked hx
      · rw [and_true, funext fun x => propext (hfinal x)]
    · rw [List.map_cons, siteNames, Hoistable, hnames.nodup_iff]
      simp only [hnames.mem_iff, siteNames]

/-- When functions are moved out of the containers of the body. -/
theorem decides_hoist (h : Sealed env contexts (sites.map ContractSite.id) sites m) :
    Decides hoist m (Hoistable m.Declared (sites.map siteNames)) fun _ n =>
      Sealed env contexts [] [] n ∧ ∀ x, Provides m x → Provides n x := by
  refine .of_run_bind h.run_needBody ?_
  refine .of_run_bind (x := get) rfl ?_
  rw [h.topContainers_eq]
  exact decides_hoistFrom h

end ContractIR.EraVM
