import ContractIR.Proofs.Legalization.Entrance

/-!
# The outline of a legalized program

A program is a list of contracts, and its legalized module is a list of low-level symbols: the
globals of the ABI, the declaration of the return function, the functions of all contracts in the
order of the source, and the functions that were generated.  The globals are there whatever names
the contracts have.  The declaration is there unless a contract has its name, and what is generated
depends on whether some contract is deployable.

## Main definitions

* `ContractIR.EraVM.IsFunctionOf` — an operation is what a function of the source became.
* `ContractIR.EraVM.Outline` — the body of a legalized module, in order.
* `ContractIR.EraVM.Generates` — one operation of the body has a name, and is new.
* `ContractIR.EraVM.EntryLayout` — which functions are generated, and which names are kept for them.

## Main results

* `ContractIR.EraVM.Inventory.globals_eq` — a legalized module declares every global.
* `ContractIR.EraVM.exists_outline` — a legalized module has an outline.
* `ContractIR.EraVM.returnReusingContracts_lackOutline` — a contract may replace the declaration.
* `ContractIR.EraVM.entryLayout_of_legalize` — which functions are generated.
-/

set_option autoImplicit false

namespace ContractIR.EraVM

variable {source : Source} {contracts : List Contract} {sites : List ContractSite}
  {m n : Module} {globals : List Global} {code rest added : List OpId} {stats : Conversion.Stats}

/-! ## What is declared -/

/-- A contract with the name of a global is deployable. -/
theorem deployables_ne_nil {names : List String} {g : Global} (h : g.name ∈ names) :
    deployables names ≠ [] := by
  refine List.ne_nil_of_mem (a := g.name) (List.mem_filter.2 ⟨h, ?_⟩)
  cases g <;> decide

/-- If some contract is deployable, none has the name of the entry function. -/
theorem Inventory.entryName_notMem (h : Inventory m n contracts sites globals code rest added)
    (hdeployable : deployables (contracts.map Contract.name) ≠ []) :
    entryName ∉ contracts.map Contract.name := by
  rcases (splitsOnce_iff _ _).1 h.splits with hnone | ⟨hfree, -⟩
  · exact absurd hnone hdeployable
  · exact hfree

/-- **A legalized module declares every global of the ABI**, whatever names the contracts have.

**Proof sketch.** A global is declared unless a contract has its name.  If one does, that contract
is deployable, so there is an entry function; it takes the address of the global, and the module
would not be accepted without it. -/
theorem Inventory.globals_eq (h : Inventory m n contracts sites globals code rest added)
    (hlayout : Layout source contracts sites m) (hne : contracts ≠ []) : globals = Global.all := by
  have hmem : ∀ g : Global, g ∈ globals := by
    intro g
    by_cases hg : g.name ∈ contracts.map Contract.name
    · have hdeployable := deployables_ne_nil hg
      obtain ⟨f, hf, hname⟩ := (h.declares entryName).2
        ⟨.inr ⟨hdeployable, .inl rfl⟩, h.entryName_notMem hdeployable⟩
      obtain ⟨entry, deploy, runtime, hentry⟩ := h.exists_entryFunction hf hname
      exact (h.exists_global ((h.mem_new_iff hlayout).1 hf).1 hentry g).1
    · obtain ⟨o, ho, hname⟩ :=
        (h.declares g.name).2 ⟨.inl ⟨by simpa using hne, .inl ⟨g, rfl⟩⟩, hg⟩
      rcases h.new_cases ho with ⟨k, hk, hsym, -⟩ | ⟨hsym, -⟩ | ⟨-, hgenerated⟩
      · exact Global.name_injective (Option.some.inj (hsym.symm.trans hname)) ▸ hk
      · exact absurd (Option.some.inj (hname.symm.trans hsym)) g.name_ne.2.2.2
      · rcases hgenerated.symName?_cases with ⟨hsym, -⟩ | ⟨hsym, -⟩ | ⟨hsym, -⟩
        · exact absurd (Option.some.inj (hname.symm.trans hsym)) g.name_ne.1
        · exact absurd (Option.some.inj (hname.symm.trans hsym)) g.name_ne.2.1
        · exact absurd (Option.some.inj (hname.symm.trans hsym)) g.name_ne.2.2.1
  have hnodup : Global.all.Nodup := by decide
  exact h.sublist.eq_of_length_le (hnodup.subperm fun g _ => hmem g).length_le

/-- The return function is declared unless a contract has its name. -/
theorem Inventory.exists_declaration (h : Inventory m n contracts sites globals code rest added)
    (hne : contracts ≠ []) (hreturn : returnName ∉ contracts.map Contract.name) :
    ∃ o, rest = [o] ∧ IsReturnDeclaration n o ∧ n.entryBlock? o = none := by
  obtain ⟨o, ho, hname⟩ :=
    (h.declares returnName).2 ⟨.inl ⟨by simpa using hne, .inr (.inl rfl)⟩, hreturn⟩
  rcases h.new_cases ho with ⟨g, -, hsym, -⟩ | ⟨-, hrest, hdeclaration⟩ | ⟨-, hgenerated⟩
  · exact absurd (Option.some.inj (hsym.symm.trans hname)) g.name_ne.2.2.2
  · exact ⟨o, hrest, hdeclaration, h.bodyless o (by simp [hrest])⟩
  · rcases hgenerated.symName?_cases with ⟨hsym, -⟩ | ⟨hsym, -⟩ | ⟨hsym, -⟩ <;>
      exact absurd (Option.some.inj (hsym.symm.trans hname)) (by decide)

/-! ## Functions of the source -/

/-- An operation is what a function of the source became: it has its name, and its signature is made
of the types that those of its parameters and results are compiled as. -/
def IsFunctionOf (n : Module) (f : Function) (o : OpId) : Prop :=
  n.kind o = .llvm .func ∧ n.symName? o = some f.name ∧ ∃ s, n.signature? o = some s ∧
    List.Forall₂ (fun p ty => Lowers p.ty ty) f.parameters s.inputs ∧
    List.Forall₂ (fun p ty => Lowers p.ty ty) f.returns s.results

/-- The types of parameters, in order. -/
theorem forall₂_lowers_of_mapM {ps : List Parameter} {lowered : List (Ty × Location)}
    (h : ps.mapM (lowerParameter source) = .ok lowered) :
    List.Forall₂ (fun p ty => Lowers p.ty ty) ps (lowered.map Prod.fst) := by
  rw [List.forall₂_map_right_iff, List.forall₂_iff_get]
  refine ⟨(length_of_mapM h).symm, fun i hi hi' => ?_⟩
  exact lowers_of_mapM h (List.getElem?_eq_getElem hi) (List.getElem?_eq_getElem hi')

/-- What the code at a site says about a function. -/
theorem isFunctionOf_of_code {f : Function} {s : FunctionSite} (hof : FunctionSite.Of source f s)
    (hkind : n.kind s.id = .llvm .func) (hname : n.symName? s.id = some s.code.name)
    (hsignature : n.signature? s.id = some s.code.signature) : IsFunctionOf n f s.id := by
  obtain ⟨_, inputs, results, _, hin, hout, hcode, hsig, _⟩ := Function.code_eq_ok hof
  refine ⟨hkind, hcode ▸ hname, _, hsignature, ?_, ?_⟩
  · rw [hsig]
    exact forall₂_lowers_of_mapM hin
  · rw [hsig]
    exact forall₂_lowers_of_mapM hout

/-- **The functions of a legalized module** are those of the contracts, in order. -/
theorem Inventory.forall₂_functions (h : Inventory m n contracts sites globals code rest added)
    (hlayout : Layout source contracts sites m) :
    List.Forall₂ (IsFunctionOf n) (contracts.flatMap Contract.functions)
      (sites.flatMap fun c => c.functions.map FunctionSite.id) := by
  have hof := hlayout.contracts
  have hfunctions := h.functions
  clear h hlayout
  induction hof with
  | nil => exact .nil
  | @cons contract c contracts sites hof _ ih =>
    rw [List.forall_mem_cons] at hfunctions
    refine List.rel_append ?_ (ih hfunctions.2)
    rw [List.forall₂_map_right_iff]
    have hboth := (List.forall₂_and_left _ _).2 ⟨hfunctions.1, hof.functions.flip⟩
    exact (hboth.imp fun s f hs => isFunctionOf_of_code hs.2 hs.1.1 hs.1.2.1 hs.1.2.2).flip

/-! ## Outlines -/

/-- **The body of a legalized module**, in order: the globals of the ABI, the declaration of the
return function, the functions of the contracts, and generated functions.  No two operations of the
body share a name, and the functions of the contracts are those that were there before. -/
structure Outline (m n : Module) (contracts : List Contract) (code : List OpId) (ret : OpId)
    (functions added : List OpId) : Prop where
  listed : n.topLevel = code ++ ret :: functions ++ added
  globals : List.Forall₂ (IsGlobal n) code Global.all
  declaration : IsReturnDeclaration n ret ∧ n.entryBlock? ret = none
  source : List.Forall₂ (IsFunctionOf n) (contracts.flatMap Contract.functions) functions
  generated : ∀ o ∈ added, IsGenerated n o
  old : ∀ o ∈ n.topLevel, o ∈ functions ↔ o.index < m.ops.size
  distinct : (n.topLevel.map n.symName?).Nodup

/-- **A legalized module has an outline**, if no contract has the name of the return function.

**Proof sketch.** The inventory of the body (`exists_inventory`), with all globals and the
declaration of the return function there, since no contract keeps them from being declared; an
operation is old exactly if it is a function of a contract. -/
theorem exists_outline (h : lowerContracts source contracts = .ok m)
    (hlegal : legalize.run m = .ok stats n) (hne : contracts ≠ [])
    (hreturn : ∀ c ∈ contracts, c.name ≠ returnName) :
    ∃ code ret functions added, Outline m n contracts code ret functions added := by
  obtain ⟨-, sites, hlayout⟩ := layout_of_lowerContracts h
  obtain ⟨globals, code, rest, added, hinventory⟩ := exists_inventory h hlayout hlegal
  obtain ⟨ret, rfl, hdeclaration⟩ := hinventory.exists_declaration hne (by simpa using hreturn)
  obtain rfl := hinventory.globals_eq hlayout hne
  have htop := hinventory.top.topLevel_eq
  refine ⟨code, ret, _, added, ?_, hinventory.globals, hdeclaration,
    hinventory.forall₂_functions hlayout, hinventory.generated, fun o ho => ?_, ?_⟩
  · rw [htop, hinventory.listed]
    simp
  · rw [htop] at ho
    constructor
    · intro hfunction
      simp only [List.mem_flatMap, List.mem_map] at hfunction
      obtain ⟨c, hc, s, hs, rfl⟩ := hfunction
      exact ((hlayout.sites c hc).functions s hs).1.id_lt
    · intro hlt
      by_contra hnone
      have hnew : o ∈ code ++ [ret] ++ added := by
        rw [hinventory.listed] at ho
        simp only [List.mem_append] at ho ⊢
        exact ho.imp_left fun hleft => hleft.resolve_right hnone
      exact Nat.not_lt.2 (hinventory.new o hnew) hlt
  · rw [htop]
    exact (hinventory.linked.ops_nodup _).map_on fun o ho p hp heq =>
      hinventory.top.distinct o ho p hp heq

/-- The body of the legalized module of a contract with its runtime code, in order. -/
theorem nameReusingContracts_outline :
    ∃ m stats n, lowerContracts emptySource nameReusingContracts = .ok m ∧
      legalize.run m = .ok stats n ∧ nameReusingContracts ≠ [] ∧
      (∀ c ∈ nameReusingContracts, c.name ≠ returnName) ∧
      ∃ code ret functions added, Outline m n nameReusingContracts code ret functions added := by
  obtain ⟨m, stats, n, h, hlegal⟩ := exists_legalize_nameReusingContracts
  have hne : nameReusingContracts ≠ [] := by decide
  have hreturn : ∀ c ∈ nameReusingContracts, c.name ≠ returnName := by decide
  exact ⟨m, stats, n, h, hlegal, hne, hreturn, exists_outline h hlegal hne hreturn⟩

/-- Whether contracts are lowered and legalized, and a test of both modules is passed. -/
def legalizesInto (source : Source) (contracts : List Contract) (test : Module → Module → Bool) :
    Bool :=
  match lowerContracts source contracts with
  | .ok m => Outcome.endsIn legalize m (test m)
  | .error _ => false

/-- Contracts that are legalized into something give a module. -/
theorem exists_of_legalizesInto {test : Module → Module → Bool}
    (h : legalizesInto source contracts test = true) :
    ∃ m stats n, lowerContracts source contracts = .ok m ∧ legalize.run m = .ok stats n ∧
      test m n = true := by
  rw [legalizesInto] at h
  split at h
  · rename_i m hm
    obtain ⟨stats, n, hn⟩ := Outcome.exists_of_endsIn h
    exact ⟨m, stats, n, hm, hn⟩
  · cases h

/-- A contract with the name of the return function, and a later one with a function of this
name. -/
def returnReusingContracts : List Contract :=
  [{ name := "__return" },
    { name := "Token_deployed"
      functions :=
        [{ name := "__return"
           parameters := [1, 2, 3].map fun d => { declaration := d, ty := .integer ⟨256, false⟩ }
           body := [.ret none {}] }] }]

/-- Where there is an outline, no function of a contract has the name of the return function. -/
theorem Outline.function_name_ne {ret : OpId} {functions : List OpId}
    (h : Outline m n contracts code ret functions added) {f : Function}
    (hf : f ∈ contracts.flatMap Contract.functions) : f.name ≠ returnName := by
  intro hname
  obtain ⟨o, ho, -, hsym, -⟩ := Outcome.exists_right h.source hf
  have hdistinct := h.distinct
  rw [h.listed] at hdistinct
  simp only [List.append_assoc, List.map_append, List.map_cons, List.cons_append] at hdistinct
  refine (List.nodup_cons.1 (List.nodup_append.1 hdistinct).2.1).1 ?_
  rw [h.declaration.1.symName?, ← hname, ← hsym]
  exact List.mem_append_left _ (List.mem_map_of_mem ho)

/-- The contract keeps the return function from being declared and is dropped, and the function of
the later one is called instead of it.

**Proof sketch.** That lowering, splitting and hoisting succeed, and that the moved function
serves as the return function, is computed; so legalization succeeds.  An outline would have no
function of that name (`Outline.function_name_ne`). -/
theorem returnReusingContracts_lackOutline :
    ∃ m stats n, lowerContracts emptySource returnReusingContracts = .ok m ∧
      legalize.run m = .ok stats n ∧
      ¬∃ code ret functions added, Outline m n returnReusingContracts code ret functions added := by
  obtain ⟨m, h⟩ : ∃ m, lowerContracts emptySource returnReusingContracts = .ok m :=
    Outcome.exists_of_isOk (by decide +kernel)
  -- The moved function serves as the return function.
  have hends : (match lowerContracts emptySource returnReusingContracts with
      | .ok m => Outcome.endsIn splitAndHoist m fun p => decide (∃ j ∈ (p.block ⟨0⟩).ops,
          p.symName? j = some returnName ∧ (p.kind j).isContainer = false ∧
            (p.kind j).isFunction = true ∧ p.signature? j = abiSignature? returnName)
      | .error _ => false) = true := by
    decide +kernel
  rw [h] at hends
  obtain ⟨contexts, p, hrun, hfunction⟩ := Outcome.exists_of_endsIn hends
  obtain ⟨j, hj, hsym, hcontainer, hkind, hsignature⟩ := of_decide_eq_true hfunction
  have hserves : Serves p returnName j :=
    ⟨fun s hs => ⟨hkind, hsignature.trans hs⟩, fun g hg => absurd hg.symm g.name_ne.2.2.2⟩
  obtain ⟨stats, n, hverify, hlegal⟩ := run_legalize_of_provides h hrun
  rw [hverify ?_] at hlegal
  · refine ⟨m, stats, n, h, hlegal, ?_⟩
    rintro ⟨code, ret, functions, added, houtline⟩
    exact houtline.function_name_ne (List.mem_cons_self ..) rfl
  · have hnames : ∀ c ∈ returnReusingContracts, isReserved c.name = true → c.name = returnName := by
      decide
    exact fun c hc hreserved => (hnames c hc hreserved).symm ▸ ⟨j, ⟨hj, hsym⟩, hcontainer, hserves⟩

/-! ## Generated functions -/

/-- Legalization made the one operation of the body with a name, a low-level function. -/
structure Generates (m n : Module) (name : String) (signature : Signature) (o : OpId) : Prop where
  sole : n.topLevel.filter (fun p => decide (n.symName? p = some name)) = [o]
  new : m.ops.size ≤ o.index
  kind : n.kind o = .llvm .func
  signature : n.signature? o = some signature

/-- An operation of the body is the only one with its name. -/
theorem filter_symName? (hn : n.Linked) (htop : n.TopLevel) {name : String} {o : OpId}
    (ho : n.Declares name o) :
    n.topLevel.filter (fun p => decide (n.symName? p = some name)) = [o] := by
  rw [htop.topLevel_eq, ← List.perm_singleton,
    List.perm_ext_iff_of_nodup ((hn.ops_nodup _).filter _) (List.nodup_singleton o)]
  intro p
  rw [List.mem_filter, decide_eq_true_iff, List.mem_singleton]
  constructor
  · exact fun hp => htop.eq_of_declares hp ho
  · rintro rfl
    exact ho

/-- What is generated under a name. -/
theorem Inventory.generates (h : Inventory m n contracts sites globals code rest added)
    (hlayout : Layout source contracts sites m) {name : String}
    (hgenerated : Generated (contracts.map Contract.name) name)
    (hfree : name ∉ contracts.map Contract.name)
    (hname : name = entryName ∨ name = deployName ∨ name = runtimeName) :
    ∃ o, IsGenerated n o ∧ n.symName? o = some name ∧
      n.topLevel.filter (fun p => decide (n.symName? p = some name)) = [o] ∧
      m.ops.size ≤ o.index := by
  obtain ⟨o, ho, hsym⟩ := (h.declares name).2 ⟨hgenerated, hfree⟩
  obtain ⟨hbody, hnew⟩ := (h.mem_new_iff hlayout).1 ho
  refine ⟨o, ?_, hsym, filter_symName? h.linked h.top ⟨hbody, hsym⟩, hnew⟩
  rcases h.new_cases ho with ⟨g, -, hg, -⟩ | ⟨hreturn, -⟩ | ⟨-, hgenerated⟩
  · obtain rfl := Option.some.inj (hg.symm.trans hsym)
    rcases hname with hname | hname | hname
    · exact absurd hname g.name_ne.1
    · exact absurd hname g.name_ne.2.1
    · exact absurd hname g.name_ne.2.2.1
  · obtain rfl := Option.some.inj (hreturn.symm.trans hsym)
    exact absurd hname (by decide)
  · exact hgenerated

/-- **The layout of a legalized program.**  There is a runtime function; if some contract is
deployable there are an entry function and a deploy function as well, and otherwise neither is
generated.  No function of the source has the name of a symbol that was generated or declared. -/
structure EntryLayout (m n : Module) (contracts : List Contract) : Prop where
  runtime : ∃ o, Generates m n runtimeName ⟨[], []⟩ o ∧
    n.attr? o AttrName.isRuntime = some (.bool true)
  deployable : (∃ c ∈ contracts, CodeContext.isRuntimeName c.name = false) →
    (∃ o, Generates m n entryName entrySignature o) ∧
      ∃ o, Generates m n deployName ⟨[], []⟩ o ∧ n.attr? o AttrName.isRuntime = some (.bool false)
  runtimeOnly : (∀ c ∈ contracts, CodeContext.isRuntimeName c.name = true) →
    ∀ o ∈ n.topLevel, m.ops.size ≤ o.index →
      n.symName? o ≠ some entryName ∧ n.symName? o ≠ some deployName
  names : NamesFree contracts

/-- Some contract is deployable. -/
theorem deployables_ne_nil_iff :
    deployables (contracts.map Contract.name) ≠ [] ↔
      ∃ c ∈ contracts, CodeContext.isRuntimeName c.name = false := by
  simp [deployables, List.filter_eq_nil_iff]

/-- A function for code is generated with its marker.

**Proof sketch.** The name is generated and no contract has it, so one operation of that name was
added.  It is one of the three sorts, and the name tells which. -/
theorem Inventory.generates_routine (h : Inventory m n contracts sites globals code rest added)
    (hlayout : Layout source contracts sites m) {name : String} {context : CodeContext}
    (hname : name = deployName ∧ context = .deploy ∨ name = runtimeName ∧ context = .runtime)
    (hgenerated : Generated (contracts.map Contract.name) name)
    (hfree : name ∉ contracts.map Contract.name) :
    ∃ o, Generates m n name ⟨[], []⟩ o ∧
      n.attr? o AttrName.isRuntime = some (.bool (decide (context = .runtime))) := by
  obtain ⟨o, ho, hsym, hsole, hnew⟩ := h.generates hlayout hgenerated hfree
    (hname.elim (fun hd => .inr (.inl hd.1)) fun hr => .inr (.inr hr.1))
  have hroutine : IsRoutineFunction n name context o := by
    rcases ho.symName?_cases with ⟨hentry, -⟩ | ⟨hdeploy, hroutine⟩ | ⟨hruntime, hroutine⟩
    · obtain rfl := Option.some.inj (hentry.symm.trans hsym)
      rcases hname with ⟨hname, -⟩ | ⟨hname, -⟩ <;> exact absurd hname (by decide)
    · obtain rfl := Option.some.inj (hdeploy.symm.trans hsym)
      rcases hname with ⟨-, rfl⟩ | ⟨hname, -⟩
      · exact hroutine
      · exact absurd hname (by decide)
    · obtain rfl := Option.some.inj (hruntime.symm.trans hsym)
      rcases hname with ⟨hname, -⟩ | ⟨-, rfl⟩
      · exact absurd hname (by decide)
      · exact hroutine
  refine ⟨o, ⟨hsole, hnew, hroutine.1, ?_⟩, ?_⟩
  · rw [Module.signature?, Module.attr?, hroutine.2]
    rfl
  · rw [Module.attr?, hroutine.2, AttrDict.get?_set, if_pos rfl]

/-- The entry function is generated with its signature. -/
theorem Inventory.generates_entry (h : Inventory m n contracts sites globals code rest added)
    (hlayout : Layout source contracts sites m)
    (hdeployable : deployables (contracts.map Contract.name) ≠ []) :
    ∃ o, Generates m n entryName entrySignature o := by
  obtain ⟨o, ho, hsym, hsole, hnew⟩ := h.generates hlayout (.inr ⟨hdeployable, .inl rfl⟩)
    (h.entryName_notMem hdeployable) (.inl rfl)
  rcases ho.symName?_cases with ⟨-, _, _, _, hentry⟩ | ⟨hdeploy, -⟩ | ⟨hruntime, -⟩
  · refine ⟨o, hsole, hnew, hentry.kind, ?_⟩
    rw [Module.signature?, Module.attr?, hentry.attrs]
    rfl
  · exact absurd (Option.some.inj (hdeploy.symm.trans hsym)) (by decide)
  · exact absurd (Option.some.inj (hruntime.symm.trans hsym)) (by decide)

/-- **The layout of a legalized program**, if no contract has a reserved name.

**Proof sketch.** The inventory of the body, where every reserved name is free of contracts.
Whether a name is generated is a condition on the contracts: the runtime function if there is one,
the other two if one of them is deployable. -/
theorem entryLayout_of_legalize (h : lowerContracts source contracts = .ok m)
    (hlegal : legalize.run m = .ok stats n) (hne : contracts ≠ [])
    (hreserved : ∀ c ∈ contracts, isReserved c.name = false) : EntryLayout m n contracts := by
  obtain ⟨-, sites, hlayout⟩ := layout_of_lowerContracts h
  obtain ⟨globals, code, rest, added, hinventory⟩ := exists_inventory h hlayout hlegal
  have hfree : ∀ x, isReserved x = true → x ∉ contracts.map Contract.name := by
    intro x hx hmem
    obtain ⟨c, hc, rfl⟩ := List.mem_map.1 hmem
    rw [hreserved c hc] at hx
    cases hx
  refine ⟨?_, fun hdeployable => ⟨?_, ?_⟩, fun hruntime o ho hnew => ?_, ?_⟩
  · exact hinventory.generates_routine hlayout (.inr ⟨rfl, rfl⟩)
      (.inl ⟨by simpa using hne, .inr (.inr rfl)⟩) (hfree _ (by decide))
  · exact hinventory.generates_entry hlayout (deployables_ne_nil_iff.2 hdeployable)
  · exact hinventory.generates_routine hlayout (.inl ⟨rfl, rfl⟩)
      (.inr ⟨deployables_ne_nil_iff.2 hdeployable, .inr rfl⟩) (hfree _ (by decide))
  · -- without a deployable contract neither name is among those that are generated
    rw [hinventory.top.topLevel_eq] at ho
    have hmem := (hinventory.mem_new_iff hlayout).2 ⟨ho, hnew⟩
    have hnone : ¬∃ c ∈ contracts, CodeContext.isRuntimeName c.name = false := by
      rintro ⟨c, hc, hdeployable⟩
      rw [hruntime c hc] at hdeployable
      cases hdeployable
    have hother : ∀ x, (x = entryName ∨ x = deployName) → n.symName? o ≠ some x := by
      intro x hx hsym
      rcases ((hinventory.declares x).1 ⟨o, hmem, hsym⟩).1 with ⟨-, hname⟩ | ⟨hdeployable, -⟩
      · rcases hname with ⟨g, rfl⟩ | rfl | rfl
        · exact hx.elim g.name_ne.1 g.name_ne.2.1
        · exact absurd hx (by decide)
        · exact absurd hx (by decide)
      · exact hnone (deployables_ne_nil_iff.1 hdeployable)
    exact ⟨hother _ (.inl rfl), hother _ (.inr rfl)⟩
  · exact (hoistable_contracts_iff (nodup_names h) hreserved).1
      ((exists_legalize_iff h hreserved).1 ⟨stats, n, hlegal⟩).2

/-- A contract with its runtime code has the layout, with all three functions. -/
theorem nameReusingContracts_entryLayout :
    ∃ m stats n, lowerContracts emptySource nameReusingContracts = .ok m ∧
      legalize.run m = .ok stats n ∧ nameReusingContracts ≠ [] ∧
      (∀ c ∈ nameReusingContracts, isReserved c.name = false) ∧
      EntryLayout m n nameReusingContracts := by
  obtain ⟨m, stats, n, h, hlegal⟩ := exists_legalize_nameReusingContracts
  have hne : nameReusingContracts ≠ [] := by decide
  have hreserved := lowered_nameReusingContracts.2
  exact ⟨m, stats, n, h, hlegal, hne, hreserved, entryLayout_of_legalize h hlegal hne hreserved⟩

/-- A contract of runtime code. -/
def runtimeContract : Contract where
  name := "Token_deployed"
  functions := [{ name := "mint", body := [.ret none {}] }]

/-- Runtime code alone is legalized without an entry function. -/
theorem runtimeContract_lacksEntry :
    ∃ m stats n, lowerContracts emptySource [runtimeContract] = .ok m ∧
      legalize.run m = .ok stats n ∧ ¬∃ o, Generates m n entryName entrySignature o := by
  have hends : legalizesInto emptySource [runtimeContract] (fun _ n =>
      decide (∀ p ∈ n.topLevel, n.symName? p ≠ some entryName)) = true := by
    decide +kernel
  obtain ⟨m, stats, n, h, hlegal, hnone⟩ := exists_of_legalizesInto hends
  refine ⟨m, stats, n, h, hlegal, ?_⟩
  rintro ⟨o, ho⟩
  have hmem : o ∈ n.topLevel.filter fun p => decide (n.symName? p = some entryName) := by
    rw [ho.sole]
    exact List.mem_singleton_self o
  obtain ⟨hmem, hname⟩ := List.mem_filter.1 hmem
  exact of_decide_eq_true hnone o hmem (of_decide_eq_true hname)

end ContractIR.EraVM
