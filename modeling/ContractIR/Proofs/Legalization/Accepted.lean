import ContractIR.Proofs.Legalization.Sweeps
import ContractIR.Proofs.Verification.Dominance

/-!
# Legalized modules pass the verifier

Where every operation is low-level, the invariant of legalization says all that the verifier asks
for, but for one thing: that the symbols which code names are declared by what they are taken for.

## Main results

* `ContractIR.Module.WellTyped.dominates` — what an operation may read is defined at it.
* `ContractIR.EraVM.Sealed.verifyUse_eq_ok` — each operation passes its rule.
* `ContractIR.EraVM.Sealed.verify_eq_ok` — the module passes the verifier.
-/

set_option autoImplicit false

namespace ContractIR

namespace Module

variable {env : Env} {m : Module}

/-! ## Definition before use -/

/-- What an operation may read is defined at it. -/
theorem WellTyped.dominates (h : m.WellTyped env) {id : OpId} {b : BlockId}
    (hb : (m.op id).parent = some b) {v : ValueId} (hv : m.Reads b id v) :
    m.dominates v id = true := dominates_of_local h.toLinked .refl (.here hb hv)

/-- Operations of one block belong to the tree together. -/
theorem isAttached_congr {o p : OpId} (h : (m.op o).parent = (m.op p).parent) :
    m.isAttached o = m.isAttached p := by
  simp only [isAttached, depthBound, isAttachedWithin, h]

end Module

namespace EraVM

variable {env : Env} {contexts : Contexts} {m : Module}

/-! ## Symbols -/

/-- The symbols of the body have distinct names.

**Proof sketch.** No operation is listed twice, so no pair of a symbol and its name is, and two
symbols of one name would be one operation (`eq_of_declares`); a repeated name would occur twice. -/
theorem Sealed.verifySymbols_body (h : Sealed env contexts [] [] m) :
    m.verifySymbols Module.body = .ok () := by
  have hnodup : (m.symbolsIn Module.body).Nodup := by
    rw [Module.symbolsIn, h.top.body]
    simp only [List.flatMap_cons, List.flatMap_nil, List.append_nil]
    refine (h.typed.ops_nodup _).filterMap fun o p s hs hs' => ?_
    simp only [Option.mem_def, Option.ite_none_right_eq_some, Option.map_eq_some_iff] at hs hs'
    obtain ⟨-, _, -, rfl⟩ := hs
    obtain ⟨-, _, -, heq⟩ := hs'
    exact (Prod.ext_iff.1 heq).1.symm
  have hnames : ((m.symbolsIn Module.body).map Prod.snd).Nodup := by
    refine List.Nodup.map_on (fun s hs t ht heq => ?_) hnodup
    obtain ⟨o, name⟩ := s
    obtain ⟨p, _⟩ := t
    obtain rfl : name = _ := heq
    rw [h.top.eq_of_declares (h.top.mem_symbolsIn_iff.1 hs) (h.top.mem_symbolsIn_iff.1 ht)]
  rw [Module.verifySymbols]
  cases hrepeated : Module.repeated? [] ((m.symbolsIn Module.body).map Prod.snd) with
  | none => rfl
  | some name =>
    rcases repeated?_eq_some hrepeated with ⟨hmem, -⟩ | hcount
    · cases hmem
    · have hone := List.nodup_iff_count_le_one.1 hnames name
      omega

/-- Where no container is left, a symbol means at every operation what the body declares. -/
theorem Sealed.lookup?_eq (h : Sealed env contexts [] [] m) {o : OpId}
    (ho : m.isAttached o = true) (name : String) : m.lookup? o name = m.lookupTop? name := by
  refine Module.lookup?_eq_lookupTop? (fun p hp => ?_) name
  have hinside := h.typed.toLinked.mem_ancestors_iff.1 (List.mem_cons_of_mem o hp)
  exact h.isContainer_eq (h.typed.toLinked.isAttached_of_inside ho hinside)

/-! ## Low-level operations -/

/-- Operations of the tree that may stay are low-level. -/
theorem exists_llvm (hnone : ∀ o, ¬Pending m o) {o : OpId} (ho : m.isAttached o = true) :
    ∃ k, m.kind o = .llvm k := by
  have hdialect : (m.kind o).dialect = .llvm := by
    by_contra hne
    exact hnone o ⟨ho, hne⟩
  cases hkind : m.kind o with
  | llvm k => exact ⟨k, rfl⟩
  | sol k | func k | arith k | memref k =>
    rw [hkind] at hdialect
    cases hdialect

/-- An operation of code refers to what is there.

**Proof sketch.** Every symbol is provided and looked up in the body.  The function around a
return is low-level, as nothing is pending, and what a branch leads to stands in the region around
it. -/
theorem Sealed.refersWell (h : Sealed env contexts [] [] m) (hnone : ∀ o, ¬Pending m o)
    (hprovides : ∀ x, env.symbols x → Provides m x) {o : OpId} (ho : m.isAttached o = true)
    (hsymbol : (m.kind o).isSymbol = false) : m.RefersWell env o := by
  obtain ⟨b, hb⟩ := Module.exists_parent_of_isAttached ho
  obtain ⟨-, -, hreturns, hbranches, -⟩ := (h.typed.typed o b hb).of_not_isSymbol hsymbol
  have hlookup : ∀ x, env.symbols x → ∃ j, m.lookup? o x = some j ∧ Serves m x j := fun x hx => by
    obtain ⟨j, hj, -, hserves⟩ := hprovides x hx
    exact ⟨j, by rw [h.lookup?_eq ho, h.top.lookupTop?_eq_some_iff.2 hj], hserves⟩
  refine ⟨fun name signature hname hsignature => ?_, fun g hg => ?_, fun hret => ?_,
    fun hcond => ?_⟩
  · obtain ⟨j, hj, hserves⟩ := hlookup name hname
    exact ⟨j, hj, hserves.signature signature hsignature⟩
  · obtain ⟨j, hj, hserves⟩ := hlookup _ hg
    exact ⟨j, hj, hserves.global g rfl⟩
  · obtain ⟨f, signature, hup, hfunction, hsignature, htypes⟩ := hreturns (by rw [hret]; rfl)
    obtain ⟨k, hk⟩ := exists_llvm hnone (h.typed.toLinked.isAttached_of_up ho hup)
    refine ⟨f, signature, hup, ?_, hsignature, htypes⟩
    rw [hk] at hfunction ⊢
    cases k <;> first | rfl | cases hfunction
  · obtain ⟨hlength, x, hx, -, hsuccessors⟩ := hbranches hcond
    refine ⟨hlength, fun y hy => ?_⟩
    rw [hx, (hsuccessors y hy).2]
    rfl

/-- No operation of code reads a memory cell. -/
theorem Sealed.element?_operands (h : Sealed env contexts [] [] m) (hnone : ∀ o, ¬Pending m o)
    {o : OpId} (ho : m.isAttached o = true) :
    ∀ t ∈ m.typesOf (m.op o).operands, t.element? = none := by
  obtain ⟨b, hb⟩ := Module.exists_parent_of_isAttached ho
  intro t ht
  obtain ⟨v, hv, rfl⟩ := List.mem_map.1 ht
  rcases h.typed.reads o b hb v hv with hv | ⟨p, hp, hsublist⟩
  · exact h.typed.args b v hv
  · have hparent : (m.op p).parent = some b := (h.typed.op_parent p b).2 (hsublist.subset (by simp))
    obtain ⟨k, hk⟩ := exists_llvm hnone
      ((Module.isAttached_congr (hparent.trans hb.symm)).trans ho)
    have hsymbol : (m.kind p).isSymbol = false := by
      by_contra hsymbol
      rw [((h.typed.typed p b hparent).of_isSymbol (by simpa using hsymbol)).2] at hp
      cases hp
    obtain ⟨-, htype, -⟩ := (h.typed.typed p b hparent).of_not_isSymbol hsymbol
    exact htype.element?_of_mem (by rw [hk]; simp) (List.mem_map_of_mem hp)

/-! ## Rules -/

/-- The blocks of a function end with terminators.

**Proof sketch.** Induction on the blocks.  Each of them belongs to the function, so it is ended,
and a block that is ended has a terminator at its end. -/
theorem Sealed.verifyTerminated_eq_ok (h : Sealed env contexts [] [] m) {f : OpId} {r : RegionId}
    (hfunction : (m.kind f).isFunction = true) (hr : (m.op f).regions = [r]) (name : String)
    {blocks : List BlockId} (hblocks : blocks ⊆ (m.region r).blocks) :
    m.verifyTerminated f name blocks = .ok () := by
  induction blocks with
  | nil => rfl
  | cons b blocks ih =>
    obtain ⟨hb, hrest⟩ := List.cons_subset.1 hblocks
    have hlinked := h.typed.toLinked
    have hlt := hlinked.blocks_lt r b hb
    have howner : m.owner? b = some f := by
      rw [Module.owner?, (hlinked.block_parent b r hlt).2 hb, hlinked.region_parent, hr]
      exact .head _
    obtain ⟨init, last, hops, hterminator, -⟩ :=
      (h.ended b ⟨hlt, f, howner, hfunction⟩).resolve_left id
    have hterminated : m.isTerminated b = true := by
      simp [Module.isTerminated, hops, hterminator]
    rw [Module.verifyTerminated, if_pos hterminated]
    exact ih hrest

/-- Each operation passes the rule of its kind.

**Proof sketch.** By how the operation is typed.  Code passes by `verifyOp_of_hasType`; functions
and globals pass the checks of their rules one by one, the blocks of a function being ended;
containers are not left. -/
theorem Sealed.verifyOp_eq_ok (h : Sealed env contexts [] [] m) (hnone : ∀ o, ¬Pending m o)
    (hprovides : ∀ x, env.symbols x → Provides m x) {o : OpId} (ho : m.isAttached o = true) :
    m.verifyOp o = .ok () := by
  obtain ⟨b, hb⟩ := Module.exists_parent_of_isAttached ho
  obtain ⟨k, hk⟩ := exists_llvm hnone ho
  have htyped := h.typed.typed o b hb
  cases htyped with
  | code hregions htype =>
    exact Module.verifyOp_of_hasType hk hregions htype (h.element?_operands hnone ho)
      (h.refersWell hnone hprovides ho htype.isSymbol_eq)
  | @function r name signature hfunction hoperands hresults hregions hname hsignature hentry =>
    have hkind : m.kind o = .llvm .func := by
      rw [hk] at hfunction ⊢
      cases k <;> first | rfl | cases hfunction
    have hcounts : m.verifyCounts o 0 0 1 = .ok () := by
      simp [Module.verifyCounts, Module.require, hoperands, hresults, hregions]
    rw [Module.verifyOp, hkind]
    simp only [Module.verifyFunction, hcounts, Outcome.ok_bind, hname, hsignature, Module.demand,
      hregions, List.headD_cons]
    cases hblocks : (m.region r).blocks with
    | nil => rfl
    | cons e rest =>
      simp only [Module.require, hentry e (by rw [hblocks]; rfl), decide_true, ↓reduceIte,
        Outcome.ok_bind]
      exact h.verifyTerminated_eq_ok hfunction hregions name (hblocks ▸ List.Subset.refl _)
  | @global name ty hkind hoperands hresults hregions hname hty hvalue =>
    have hcounts : m.verifyCounts o 0 0 0 = .ok () := by
      simp [Module.verifyCounts, Module.require, hoperands, hresults, hregions]
    rw [Module.verifyOp, hkind]
    simp only [Module.verifyGlobal, hcounts, Outcome.ok_bind, hty, Option.bind_some, Attr.type?,
      Module.demand, hname, Option.isSome_some, Module.require, ↓reduceIte]
    cases hattr : m.attr? o AttrName.value with
    | none => rfl
    | some a =>
      simp only [hvalue a hattr, ↓reduceIte]
  | container hcontainer =>
    rw [h.isContainer_eq ho] at hcontainer
    cases hcontainer

/-- Each operation passes its rule and reads what is defined. -/
theorem Sealed.verifyUse_eq_ok (h : Sealed env contexts [] [] m) (hnone : ∀ o, ¬Pending m o)
    (hprovides : ∀ x, env.symbols x → Provides m x) {o : OpId} (ho : m.isAttached o = true) :
    m.verifyUse o = .ok () := by
  obtain ⟨b, hb⟩ := Module.exists_parent_of_isAttached ho
  rw [Module.verifyUse, h.verifyOp_eq_ok hnone hprovides ho, Outcome.ok_bind]
  exact Module.verifyDominance_eq_ok
    (fun v hv => h.typed.dominates hb (h.typed.reads o b hb v hv)) 0

/-- Terminators stand at the ends of their blocks. -/
theorem Sealed.verifyPlacement_eq_ok (h : Sealed env contexts [] [] m) {o : OpId}
    (ho : m.isAttached o = true) : m.verifyPlacement o = .ok () := by
  rw [Module.verifyPlacement]
  refine if_neg ?_
  rintro ⟨hterminator, hlast⟩
  obtain ⟨b, f, hb, -, -, hfunction⟩ :=
    h.inFunction ho (OpKind.isSymbol_of_isTerminator hterminator)
  obtain ⟨init, hops, -⟩ := ((h.ended b hfunction).resolve_left id).eq_append
    ((h.typed.op_parent o b).1 hb) hterminator
  exact hlast (by simp [hb, hops])

/-- **A module in which every operation may stay passes the verifier**, if the symbols that code
names are provided. -/
theorem Sealed.verify_eq_ok (h : Sealed env contexts [] [] m) (hnone : ∀ o, ¬Pending m o)
    (hprovides : ∀ x, env.symbols x → Provides m x) : m.verify = .ok () := by
  have hwalk : ∀ o ∈ m.walk, m.isAttached o = true := fun o ho =>
    h.typed.toLinked.mem_walk_iff.1 ho
  rw [Module.verify, h.verifySymbols_body, Outcome.ok_bind,
    Module.verifyEach_eq_ok fun o ho => h.verifyPlacement_eq_ok (hwalk o ho), Outcome.ok_bind]
  exact Module.verifyEach_eq_ok fun o ho => h.verifyUse_eq_ok hnone hprovides (hwalk o ho)

end EraVM

end ContractIR
