import ContractIR.EraVM.Legalize
import ContractIR.Proofs.Legalization.Accepted
import ContractIR.Proofs.Lowering.Calls

/-!
# When legalization succeeds

Whether a lowered module can be legalized is a question of names only.  At most one contract may be
deployable, and a function may move to the body if nothing there has its name at that moment.  No
step fails for another reason, as long as no contract takes a name that the ABI declares.  If one
does, what was meant to be generated is not, and the verifier may find that it is missing.

## Main definitions

* `ContractIR.EraVM.NamesFree` — the condition on the names of functions.

## Main results

* `ContractIR.EraVM.decides_splitAndHoist` — when containers are split and functions moved.
* `ContractIR.EraVM.legalize_outcome` — what legalization can answer.
* `ContractIR.EraVM.legalize_succeeds_iff` — when it succeeds.
-/

set_option autoImplicit false

namespace ContractIR.EraVM

/-! ## Names that are free when functions move -/

/-- Functions find their names free if these are distinct, and each of them that is declared from
the start is the name of an earlier container, which is dropped by then.

**Proof sketch.** Induction along the containers.  A container that is still to come is declared,
so no function that moved has its name, and dropping it frees no other name. -/
theorem hoistable_iff {declared : String → Prop} {list : List (String × List String)}
    (hdeclared : ∀ p ∈ list, declared p.1) (hnodup : (list.map Prod.fst).Nodup) :
    Hoistable declared list ↔ (list.flatMap Prod.snd).Nodup ∧
      ∀ (i : Nat) (p : String × List String), list[i]? = some p → ∀ x ∈ p.2, declared x →
        ∃ j < i, ∃ q : String × List String, list[j]? = some q ∧ x = q.1 := by
  induction list generalizing declared with
  | nil => simp [Hoistable]
  | cons head rest ih =>
    obtain ⟨k, fs⟩ := head
    obtain ⟨hk, hrest⟩ := List.nodup_cons.1 hnodup
    have hkept : ∀ p ∈ rest, (declared p.1 ∨ p.1 ∈ fs) ∧ p.1 ≠ k := fun p hp =>
      ⟨.inl (hdeclared p (List.mem_cons_of_mem _ hp)),
        fun heq => hk (List.mem_map.2 ⟨p, hp, heq⟩)⟩
    rw [Hoistable, ih hkept hrest, List.flatMap_cons, List.nodup_append]
    constructor
    · rintro ⟨⟨hfs, hfree⟩, hflat, hearlier⟩
      refine ⟨⟨hfs, hflat, ?_⟩, ?_⟩
      · rintro x hx y hy rfl
        obtain ⟨p, hp, hxp⟩ := List.mem_flatMap.1 hy
        obtain ⟨i, hi⟩ := List.getElem?_of_mem hp
        have hxk : x ≠ k := fun heq => hfree x hx (heq ▸ hdeclared _ (.head _))
        obtain ⟨j, -, q, hq, rfl⟩ := hearlier i p hi x hxp ⟨.inr hx, hxk⟩
        exact hfree _ hx (hdeclared q (List.mem_cons_of_mem _ (List.mem_of_getElem? hq)))
      · rintro (_ | i) p hp x hx hdx
        · obtain rfl : (k, fs) = p := Option.some.inj hp
          exact absurd hdx (hfree x hx)
        · by_cases hxk : x = k
          · exact ⟨0, Nat.succ_pos i, (k, fs), rfl, hxk⟩
          · obtain ⟨j, hj, q, hq, hxq⟩ := hearlier i p hp x hx ⟨.inl hdx, hxk⟩
            exact ⟨j + 1, Nat.succ_lt_succ hj, q, hq, hxq⟩
    · rintro ⟨⟨hfs, hflat, hdisjoint⟩, hearlier⟩
      refine ⟨⟨hfs, fun x hx hdx => ?_⟩, hflat, fun i p hp x hx => ?_⟩
      · obtain ⟨j, hj, -⟩ := hearlier 0 (k, fs) rfl x hx hdx
        exact absurd hj (Nat.not_lt_zero j)
      · rintro ⟨hdx | hxfs, hxk⟩
        · obtain ⟨j, hj, q, hq, hxq⟩ := hearlier (i + 1) p hp x hx hdx
          cases j with
          | zero =>
            obtain rfl : (k, fs) = q := Option.some.inj hq
            exact absurd hxq hxk
          | succ j => exact ⟨j, Nat.lt_of_succ_lt_succ hj, q, hq, hxq⟩
        · have hmem := List.mem_flatMap.2 ⟨p, List.mem_of_getElem? hp, hx⟩
          exact absurd rfl (hdisjoint x hxfs x hmem)

/-- What is generated has a reserved name. -/
theorem isReserved_of_generated {names : List String} {x : String} (h : Generated names x) :
    isReserved x = true := by
  rcases h with ⟨-, ⟨g, rfl⟩ | rfl | rfl⟩ | ⟨-, rfl | rfl⟩
  · cases g <;> decide
  all_goals decide

/-- The names of functions allow to move all of them to the body: they are distinct, no function
has the name of its own contract or a later one, and none has the name of something generated. -/
structure NamesFree (contracts : List Contract) : Prop where
  distinct : (contracts.flatMap fun c => c.functions.map Function.name).Nodup
  contract : ∀ (i : Nat) (c : Contract), contracts[i]? = some c → ∀ f ∈ c.functions,
    ∀ (k : Nat) (d : Contract), i ≤ k → contracts[k]? = some d → f.name ≠ d.name
  generated : ∀ c ∈ contracts, ∀ f ∈ c.functions,
    (∀ g : Global, f.name ≠ g.name) ∧ f.name ≠ returnName ∧ f.name ≠ runtimeName
  deployable : (∃ d ∈ contracts, CodeContext.isRuntimeName d.name = false) →
    ∀ c ∈ contracts, ∀ f ∈ c.functions, f.name ≠ entryName ∧ f.name ≠ deployName

/-- Nothing that is generated has the name of a function. -/
theorem NamesFree.not_generated {contracts : List Contract} (h : NamesFree contracts) {c : Contract}
    (hc : c ∈ contracts) {f : Function} (hf : f ∈ c.functions) :
    ¬Generated (contracts.map Contract.name) f.name := by
  obtain ⟨hglobal, hreturn, hruntime⟩ := h.generated c hc f hf
  rintro (⟨-, ⟨g, hg⟩ | heq | heq⟩ | ⟨hne, hname⟩)
  · exact hglobal g hg
  · exact hreturn heq
  · exact hruntime heq
  · obtain ⟨x, hx⟩ := List.exists_mem_of_ne_nil _ hne
    obtain ⟨hx, hdeployable⟩ := List.mem_filter.1 hx
    obtain ⟨d, hd, rfl⟩ := List.mem_map.1 hx
    obtain ⟨hentry, hdeploy⟩ := h.deployable ⟨d, hd, by simpa using hdeployable⟩ c hc f hf
    exact hname.elim hentry hdeploy

/-- Contracts with distinct names are told apart by them. -/
theorem eq_of_name_eq {contracts : List Contract} (hnodup : (contracts.map Contract.name).Nodup)
    {j k : Nat} {d e : Contract} (hd : contracts[j]? = some d) (he : contracts[k]? = some e)
    (heq : d.name = e.name) : j = k := by
  have hlt : j < (contracts.map Contract.name).length := by
    simpa using (List.getElem?_eq_some_iff.1 hd).1
  refine (List.getElem?_inj hlt hnodup).1 ?_
  rw [List.getElem?_map, List.getElem?_map, hd, he, Option.map_some, Option.map_some, heq]

/-- A name is that of a contract, or of something that is generated. -/
def Taken (contracts : List Contract) (x : String) : Prop :=
  x ∈ contracts.map Contract.name ∨ Generated (contracts.map Contract.name) x

/-- Names are free if each name of a function that is taken is that of an earlier contract.

**Proof sketch.** Contracts have different names, and none of them that of something generated.  So
the name of a function is not that of its own contract or of a later one, and nothing generated has
it. -/
theorem namesFree_of_earlier {contracts : List Contract}
    (hnodup : (contracts.map Contract.name).Nodup)
    (hreserved : ∀ c ∈ contracts, isReserved c.name = false)
    (hdistinct : (contracts.flatMap fun c => c.functions.map Function.name).Nodup)
    (hearlier : ∀ (i : Nat) (c : Contract), contracts[i]? = some c → ∀ f ∈ c.functions,
      Taken contracts f.name → ∃ j < i, ∃ d, contracts[j]? = some d ∧ f.name = d.name) :
    NamesFree contracts := by
  have hfree : ∀ c ∈ contracts, ∀ f ∈ c.functions,
      ¬Generated (contracts.map Contract.name) f.name := by
    intro c hc f hf hname
    obtain ⟨i, hi⟩ := List.getElem?_of_mem hc
    obtain ⟨j, -, d, hd, heq⟩ := hearlier i c hi f hf (.inr hname)
    have hd := hreserved d (List.mem_of_getElem? hd)
    rw [← heq, isReserved_of_generated hname] at hd
    cases hd
  refine ⟨hdistinct, ?_, fun c hc f hf => ?_, ?_⟩
  · intro i c hc f hf k d hk hd heq
    obtain ⟨j, hj, e, he, heq'⟩ := hearlier i c hc f hf
      (.inl (heq ▸ List.mem_map_of_mem (List.mem_of_getElem? hd)))
    have hjk := eq_of_name_eq hnodup he hd (heq'.symm.trans heq)
    omega
  · have hne : contracts.map Contract.name ≠ [] := by
      simpa using List.ne_nil_of_mem hc
    refine ⟨fun g heq => ?_, fun heq => ?_, fun heq => ?_⟩
    · exact hfree c hc f hf (.inl ⟨hne, .inl ⟨g, heq⟩⟩)
    · exact hfree c hc f hf (.inl ⟨hne, .inr (.inl heq)⟩)
    · exact hfree c hc f hf (.inl ⟨hne, .inr (.inr heq)⟩)
  · rintro ⟨d, hd, hdeployable⟩ c hc f hf
    have hne : deployables (contracts.map Contract.name) ≠ [] := by
      refine List.ne_nil_of_mem (a := d.name) (List.mem_filter.2 ⟨List.mem_map_of_mem hd, ?_⟩)
      rw [hdeployable]
      rfl
    exact ⟨fun heq => hfree c hc f hf (.inr ⟨hne, .inl heq⟩),
      fun heq => hfree c hc f hf (.inr ⟨hne, .inr heq⟩)⟩

/-- Where names are free, each name of a function that is taken is that of an earlier contract. -/
theorem NamesFree.earlier {contracts : List Contract} (h : NamesFree contracts) {i : Nat}
    {c : Contract} (hc : contracts[i]? = some c) {f : Function} (hf : f ∈ c.functions)
    (htaken : Taken contracts f.name) : ∃ j < i, ∃ d, contracts[j]? = some d ∧ f.name = d.name := by
  have hfree := h.not_generated (List.mem_of_getElem? hc) hf
  obtain ⟨d, hd, heq⟩ := List.mem_map.1 (htaken.resolve_right hfree)
  obtain ⟨k, hk⟩ := List.getElem?_of_mem hd
  refine ⟨k, Nat.lt_of_not_le fun hik => ?_, d, hk, heq.symm⟩
  exact h.contract i c hc f hf k d hik hk heq.symm

/-- Where no contract has a reserved name, functions find their names free if these are free of what
is there and of what is generated.

**Proof sketch.** `hoistable_iff` puts the condition as distinct names and a taken name belonging
to an earlier contract.  Both are read over the list of contracts, and without reserved names the
second is what `NamesFree` asks (`namesFree_of_earlier`). -/
theorem hoistable_contracts_iff {contracts : List Contract}
    (hnodup : (contracts.map Contract.name).Nodup)
    (hreserved : ∀ c ∈ contracts, isReserved c.name = false) :
    Hoistable (fun x => x ∈ contracts.map Contract.name ∨ Generated (contracts.map Contract.name) x)
        (contracts.map fun c => (c.name, c.functions.map Function.name)) ↔ NamesFree contracts := by
  have hflat : (contracts.map fun c => (c.name, c.functions.map Function.name)).flatMap Prod.snd =
      contracts.flatMap fun c => c.functions.map Function.name := by
    rw [List.flatMap_map]
  have hfirst : (contracts.map fun c => (c.name, c.functions.map Function.name)).map Prod.fst =
      contracts.map Contract.name := by
    rw [List.map_map]
    rfl
  rw [hoistable_iff ?_ (hfirst ▸ hnodup), hflat]
  · simp only [List.getElem?_map, Option.map_eq_some_iff]
    constructor
    · rintro ⟨hdistinct, hearlier⟩
      refine namesFree_of_earlier hnodup hreserved hdistinct fun i c hc f hf htaken => ?_
      obtain ⟨j, hj, _, ⟨d, hd, rfl⟩, heq⟩ := hearlier i _ ⟨c, hc, rfl⟩ f.name
        (List.mem_map_of_mem hf) htaken
      exact ⟨j, hj, d, hd, heq⟩
    · intro h
      refine ⟨h.distinct, ?_⟩
      rintro i _ ⟨c, hc, rfl⟩ x hx htaken
      obtain ⟨f, hf, rfl⟩ := List.mem_map.1 hx
      obtain ⟨j, hj, d, hd, heq⟩ := h.earlier hc hf htaken
      exact ⟨j, hj, _, ⟨d, hd, rfl⟩, heq⟩
  · intro p hp
    obtain ⟨c, hc, rfl⟩ := List.mem_map.1 hp
    exact .inl (List.mem_map_of_mem hc)

/-! ## The steps of legalization -/

section Lowered

variable {source : Source} {contracts : List Contract} {m : Module}

/-- The sites of contracts have the names of the contracts, and those of their functions. -/
theorem map_siteNames {sites : List ContractSite}
    (h : List.Forall₂ (ContractSite.Of source) contracts sites) :
    sites.map siteNames = contracts.map fun c => (c.name, c.functions.map Function.name) := by
  induction h with
  | nil => rfl
  | cons hof _ ih =>
    rw [List.map_cons, List.map_cons, ih, siteNames, names_of_forall₂ hof.functions, hof.name]

/-- Splits the containers, moves the functions, and gives the contexts of the functions in
between. -/
def splitAndHoist : Transform Contexts := do
  lowerContainers
  let contexts := classify (← get)
  let _ ← hoist
  return contexts

/-- Legalization splits containers, moves functions, converts operations and verifies the result. -/
theorem legalize_eq : legalize = (do
    let contexts ← splitAndHoist
    let stats ← Conversion.convert lowLevelTarget (patterns contexts)
    verified
    return stats) := by
  simp [legalize, splitAndHoist, bind_assoc]

/-- **When containers are split and functions moved.**  Afterwards everything that is generated is
provided, unless a contract has its name.

**Proof sketch.** First the split (`decides_lowerContainers`), whose outcome is sealed with its
names known, then hoisting (`decides_hoist`) from there.  A generated symbol that no contract has
the name of is not a container, so it is provided. -/
theorem decides_splitAndHoist (h : lowerContracts source contracts = .ok m) :
    Decides splitAndHoist m
      (SplitsOnce (entryName ∈ contracts.map Contract.name) (contracts.map Contract.name) ∧
        Hoistable
          (fun x => x ∈ contracts.map Contract.name ∨ Generated (contracts.map Contract.name) x)
          (contracts.map fun c => (c.name, c.functions.map Function.name)))
      fun contexts n => ∃ env : Env, env.symbols = Generated (contracts.map Contract.name) ∧
        Sealed env contexts [] [] n ∧
        ∀ x, env.symbols x → x ∉ contracts.map Contract.name → Provides n x := by
  obtain ⟨-, sites, hlayout⟩ := layout_of_lowerContracts h
  refine (decides_lowerContainers h hlayout).bind fun _ p => ?_
  rintro ⟨env, hsymbols, hsealed, hserves, hdeclared⟩
  refine .of_run_bind (x := get) rfl ?_
  have hhoist := decides_hoist hsealed
  rw [map_siteNames hlayout.contracts, funext fun x => propext (hdeclared x)] at hhoist
  have hprovides : ∀ x, env.symbols x → x ∉ contracts.map Contract.name → Provides p x := by
    intro x hx hfree
    obtain ⟨j, hj⟩ := (hdeclared x).2 (.inr (hsymbols ▸ hx))
    have hcontainer : (p.kind j).isContainer = false := by
      by_contra hcontainer
      have hmem : j ∈ (p.block ⟨0⟩).ops.filter fun o => (p.kind o).isContainer :=
        List.mem_filter.2 ⟨hj.1, by simpa using hcontainer⟩
      rw [hsealed.containers] at hmem
      obtain ⟨c, hc, rfl⟩ := List.mem_map.1 hmem
      have hname := Option.some.inj (hj.2.symm.trans (hsealed.standing c hc).name)
      exact hfree (names_sites hlayout ▸ hname ▸ List.mem_map_of_mem hc)
    exact ⟨j, hj, hcontainer, hserves x j hj hcontainer⟩
  refine (hhoist.bind fun _ n hn => .of_run rfl ?_).congr (and_iff_left trivial) fun _ _ => id
  exact ⟨env, hsymbols, hn.1, fun x hx hfree => hn.2 x (hprovides x hx hfree)⟩

/-- What follows when containers are split and functions moved: the conversion succeeds, and so does
the check of the result if the names of contracts that are reserved are provided. -/
theorem run_legalize_of_provides (h : lowerContracts source contracts = .ok m)
    {contexts : Contexts} {p : Module} (hrun : splitAndHoist.run m = .ok contexts p) :
    ∃ (stats : Conversion.Stats) (n : Module),
      ((∀ c ∈ contracts, isReserved c.name = true → Provides p c.name) → n.verify = .ok ()) ∧
      legalize.run m = match n.verify with
        | .ok _ => .ok stats n
        | .error e => .error (.verification e) n := by
  obtain ⟨-, env, hsymbols, hsealed, hprovides⟩ := (decides_splitAndHoist h).of_ok hrun
  obtain ⟨stats, n, hconvert, hn, hnone⟩ := exists_convert hsealed
  refine ⟨stats, n, fun hreserved => ?_, ?_⟩
  · refine hn.sealed.verify_eq_ok hnone fun x hx => hn.provides x ?_
    by_cases hmem : x ∈ contracts.map Contract.name
    · obtain ⟨c, hc, rfl⟩ := List.mem_map.1 hmem
      exact hreserved c hc (isReserved_of_generated (hsymbols ▸ hx))
    · exact hprovides x hx hmem
  · rw [legalize_eq, EStateM.run_bind, hrun]
    change ((Conversion.convert lowLevelTarget (patterns contexts)) >>= _).run p = _
    rw [EStateM.run_bind, hconvert]
    change (verified >>= _).run n = _
    rw [EStateM.run_bind, verified, Outcome.run_get_bind]
    cases n.verify <;> rfl

/-- If no contract has a reserved name, the check of the result succeeds. -/
theorem run_legalize_of_splitAndHoist (h : lowerContracts source contracts = .ok m)
    {contexts : Contexts} {p : Module} (hrun : splitAndHoist.run m = .ok contexts p) :
    ∃ (stats : Conversion.Stats) (n : Module),
      ((∀ c ∈ contracts, isReserved c.name = false) → n.verify = .ok ()) ∧
      legalize.run m = match n.verify with
        | .ok _ => .ok stats n
        | .error e => .error (.verification e) n := by
  obtain ⟨stats, n, hverify, hlegal⟩ := run_legalize_of_provides h hrun
  refine ⟨stats, n, fun hfree => hverify fun c hc hreserved => ?_, hlegal⟩
  rw [hfree c hc] at hreserved
  cases hreserved

/-- **What legalization can answer** for a lowered module: it succeeds, or something is not
supported, or some contract has a reserved name and the verifier refuses the result.  No step of
building or rewriting fails, and no assumption is violated. -/
theorem legalize_outcome (h : lowerContracts source contracts = .ok m) :
    (∃ stats n, legalize.run m = .ok stats n) ∨
      (∃ what location n, legalize.run m = .error (.unsupported what location) n) ∨
      (∃ c ∈ contracts, isReserved c.name = true) ∧
        ∃ e n, legalize.run m = .error (.verification e) n := by
  cases decides_splitAndHoist h with
  | fails what location p hP hrun =>
    refine .inr (.inl ⟨what, location, p, ?_⟩)
    rw [legalize_eq, EStateM.run_bind, hrun]
  | succeeds contexts p hP hrun hQ =>
    obtain ⟨stats, n, hverify, hlegal⟩ := run_legalize_of_splitAndHoist h hrun
    cases hn : n.verify with
    | ok u => exact .inl ⟨stats, n, by rw [hlegal, hn]⟩
    | error e =>
      refine .inr (.inr ⟨?_, e, n, by rw [hlegal, hn]⟩)
      by_contra hnone
      rw [hverify fun c hc => by simpa using fun hc' => hnone ⟨c, hc, hc'⟩] at hn
      cases hn

/-- A contract with the name of a global of the ABI. -/
def reservedContract : Contract where
  name := "memory_pointer"
  functions := []

/-- The contract is lowered, and legalization answers one of the three. -/
theorem reservedContract_outcome :
    ∃ m, lowerContracts emptySource [reservedContract] = .ok m ∧
      ((∃ stats n, legalize.run m = .ok stats n) ∨
        (∃ what location n, legalize.run m = .error (.unsupported what location) n) ∨
        (∃ c ∈ [reservedContract], isReserved c.name = true) ∧
          ∃ e n, legalize.run m = .error (.verification e) n) := by
  have hok : (lowerContracts emptySource [reservedContract]).isOk = true := by decide +kernel
  cases h : lowerContracts emptySource [reservedContract] with
  | error e =>
    rw [h] at hok
    cases hok
  | ok m => exact ⟨m, rfl, legalize_outcome h⟩

/-- The global is not declared, since the contract has its name; the contract is dropped, and the
verifier finds that the entry function takes the address of a symbol that is not there. -/
theorem reservedContract_refused :
    ((lowerContracts emptySource [reservedContract]).toOption.map fun m =>
      match legalize.run m with
      | .error (.verification (.undefinedSymbol kind _ name)) _ => some (kind, name)
      | _ => none) = some (some (.llvm .addressOf, "memory_pointer")) := by
  decide +kernel

/-- At most one contract may be deployable, if none has the name of the entry function. -/
theorem splitsOnce_contracts_iff {contracts : List Contract}
    (hreserved : ∀ c ∈ contracts, isReserved c.name = false) :
    SplitsOnce (entryName ∈ contracts.map Contract.name) (contracts.map Contract.name) ↔
      (contracts.filter fun c => !CodeContext.isRuntimeName c.name).length ≤ 1 := by
  have hentry : entryName ∉ contracts.map Contract.name := by
    intro hmem
    obtain ⟨c, hc, hname⟩ := List.mem_map.1 hmem
    have hfree := hreserved c hc
    rw [hname] at hfree
    cases hfree
  have hlength : (deployables (contracts.map Contract.name)).length =
      (contracts.filter fun c => !CodeContext.isRuntimeName c.name).length := by
    rw [deployables, List.filter_map, List.length_map]
    rfl
  rw [splitsOnce_iff, ← hlength, ← List.length_eq_zero_iff]
  simp only [hentry, not_false_eq_true, true_and]
  omega

/-- If no contract has a reserved name, legalization succeeds if containers are split and functions
moved. -/
theorem exists_legalize_iff (h : lowerContracts source contracts = .ok m)
    (hreserved : ∀ c ∈ contracts, isReserved c.name = false) :
    (∃ stats n, legalize.run m = .ok stats n) ↔
      SplitsOnce (entryName ∈ contracts.map Contract.name) (contracts.map Contract.name) ∧
        Hoistable
          (fun x => x ∈ contracts.map Contract.name ∨ Generated (contracts.map Contract.name) x)
          (contracts.map fun c => (c.name, c.functions.map Function.name)) := by
  cases decides_splitAndHoist h with
  | fails what location p hP hrun =>
    refine ⟨?_, fun hP' => absurd hP' hP⟩
    rintro ⟨stats, n, hlegal⟩
    rw [legalize_eq, EStateM.run_bind, hrun] at hlegal
    cases hlegal
  | succeeds contexts p hP hrun hQ =>
    obtain ⟨stats, n, hverify, hlegal⟩ := run_legalize_of_splitAndHoist h hrun
    exact ⟨fun _ => hP, fun _ => ⟨stats, n, by rw [hlegal, hverify hreserved]⟩⟩

/-- **When legalization succeeds**, if no contract has a reserved name: at most one contract is
deployable, and the names of functions are free. -/
theorem legalize_succeeds_iff (h : lowerContracts source contracts = .ok m)
    (hreserved : ∀ c ∈ contracts, isReserved c.name = false) :
    (∃ stats n, legalize.run m = .ok stats n) ↔
      (contracts.filter fun c => !CodeContext.isRuntimeName c.name).length ≤ 1 ∧
        NamesFree contracts := by
  rw [exists_legalize_iff h hreserved, splitsOnce_contracts_iff hreserved,
    hoistable_contracts_iff (nodup_names h) hreserved]

end Lowered

/-! ## A contract and its runtime code -/

/-- A deployable contract, and a contract of runtime code with a function that has the name of the
first one. -/
def nameReusingContracts : List Contract :=
  [{ name := "Token", functions := [{ name := "mint", body := [.ret none {}] }] },
    { name := "Token_deployed", functions := [{ name := "Token", body := [.ret none {}] }] }]

/-- The two are lowered, and none of them has a reserved name. -/
theorem lowered_nameReusingContracts :
    (∃ m, lowerContracts emptySource nameReusingContracts = .ok m) ∧
      ∀ c ∈ nameReusingContracts, isReserved c.name = false :=
  ⟨Outcome.exists_of_isOk (by decide +kernel), by decide⟩

/-- The first contract is dropped before the function of its name moves.

**Proof sketch.** The only pairs of contracts to look at are the two; no global has one of their
names. -/
theorem namesFree_nameReusingContracts : NamesFree nameReusingContracts := by
  refine ⟨by decide, fun i c hc f hf k d hk hd => ?_, ?_, fun _ => by decide⟩
  · match i, k with
    | 0, 0 | 0, 1 | 1, 1 =>
      obtain rfl := Option.some.inj hc
      obtain rfl := Option.some.inj hd
      obtain rfl := List.mem_singleton.1 hf
      decide
    | _ + 2, _ => cases hc
    | _, _ + 2 => cases hd
    | 1, 0 => cases hk
  · have hglobals : ∀ g : Global, "mint" ≠ g.name ∧ "Token" ≠ g.name := by
      intro g
      cases g <;> decide
    simp only [nameReusingContracts, List.forall_mem_cons, List.not_mem_nil, false_implies,
      implies_true, and_true]
    exact ⟨⟨fun g => (hglobals g).1, by decide, by decide⟩, fun g => (hglobals g).2, by decide,
      by decide⟩

/-- The two are legalized. -/
theorem nameReusingContracts_succeed :
    ∃ m, lowerContracts emptySource nameReusingContracts = .ok m ∧
      (∀ c ∈ nameReusingContracts, isReserved c.name = false) ∧
      ∃ stats n, legalize.run m = .ok stats n := by
  obtain ⟨⟨m, h⟩, hreserved⟩ := lowered_nameReusingContracts
  exact ⟨m, h, hreserved,
    (legalize_succeeds_iff h hreserved).2 ⟨by decide, namesFree_nameReusingContracts⟩⟩

/-- There is a legalized module of the two. -/
theorem exists_legalize_nameReusingContracts :
    ∃ m stats n, lowerContracts emptySource nameReusingContracts = .ok m ∧
      legalize.run m = .ok stats n := by
  obtain ⟨⟨m, h⟩, hreserved⟩ := lowered_nameReusingContracts
  obtain ⟨stats, n, hlegal⟩ := (exists_legalize_iff h hreserved).2
    ⟨(splitsOnce_contracts_iff hreserved).2 (by decide),
      (hoistable_contracts_iff (nodup_names h) hreserved).2 namesFree_nameReusingContracts⟩
  exact ⟨m, stats, n, h, hlegal⟩

end ContractIR.EraVM
