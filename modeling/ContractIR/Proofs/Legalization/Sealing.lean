import ContractIR.Proofs.Legalization.Splitting
import ContractIR.Proofs.Lowering.Verified
import ContractIR.Proofs.Module.Nesting

/-!
# Sealing functions for code

When all containers are split, the functions for code are ended by a return.  What is generated by
then is fixed by the names of the contracts: the symbols of the ABI if there is a contract at all,
and the entry function with the function for deploy code if one of them is deployable.

## Main definitions

* `ContractIR.EraVM.Generated` — the names of what is generated.
* `ContractIR.EraVM.Fills` — a module gains code outside the body.
* `ContractIR.EraVM.Standing` — the functions of a contract stand in it.
* `ContractIR.EraVM.Sealed` — the invariant when every function is ended.

## Main results

* `ContractIR.EraVM.Splitting.of_ended`, `exists_terminateNamed` — what goes by a name is ended.
* `ContractIR.EraVM.decides_lowerContainers` — when a lowered module is split, and what it is then.
-/

set_option autoImplicit false

namespace ContractIR.EraVM

open ContractIR.Module (Extends)

variable {env : Env} {containers : List OpId} {m n p : Module}

/-! ## Code outside the body -/

/-- A module gains code, and none of it in the body. -/
structure Fills (m n : Module) : Prop where
  grown : Extends (· ≠ ⟨0⟩) m n
  code : ∀ o : OpId, m.ops.size ≤ o.index → (n.kind o).isFunction = false

namespace Fills

/-- Nothing is gained. -/
theorem refl (m : Module) : Fills m m := by
  refine ⟨.refl _ m, fun o ho => ?_⟩
  rw [Module.kind, Module.op_of_le ho]
  rfl

/-- Code is gained, and then some more. -/
theorem trans (h : Fills m n) (k : Fills n p) : Fills m p := by
  refine ⟨h.grown.trans k.grown, fun o ho => ?_⟩
  rcases Nat.lt_or_ge o.index n.ops.size with hlt | hge
  · rw [Module.kind, k.grown.ops o hlt]
    exact h.code o ho
  · exact k.code o hge

/-- The body lists what it listed. -/
theorem block_eq (h : Fills m n) (hm : Staged env containers m) :
    n.block ⟨0⟩ = m.block ⟨0⟩ :=
  h.grown.blocks _ (Module.owner?_body hm.typed.toLinked hm.top.body).1 (fun hne => hne rfl)

/-- The body declares the same names. -/
theorem declares_iff (h : Fills m n) (hm : Staged env containers m) {x : String} {j : OpId} :
    n.Declares x j ↔ m.Declares x j := by
  refine Module.declares_congr (by rw [h.block_eq hm]) fun o ho => ?_
  rw [Module.symName?, Module.attr?, h.grown.ops o (hm.typed.ops_lt ho)]
  rfl

/-- The body stays as it is. -/
theorem staged (h : Fills m n) (hm : Staged env containers m) (htyped : n.WellTyped env) :
    Staged env containers n := by
  have hkind : ∀ o ∈ (m.block ⟨0⟩).ops, n.kind o = m.kind o := fun o ho => by
    rw [Module.kind, h.grown.ops o (hm.typed.ops_lt ho)]
    rfl
  refine ⟨htyped, ?_, ?_⟩
  · refine hm.top.congr (h.grown.regions _ hm.typed.body_lt) (by rw [h.block_eq hm]) fun o ho => ?_
    rw [hkind o ho, Module.symName?, Module.attr?, h.grown.ops o (hm.typed.ops_lt ho)]
    exact ⟨rfl, rfl⟩
  · rw [h.block_eq hm, ← hm.containers]
    exact List.filter_congr fun o ho => by rw [hkind o ho]

end Fills

/-! ## Functions of contracts -/

/-- The functions that stand in a contract are those of its site, under their names. -/
structure Standing (m : Module) (c : ContractSite) : Prop where
  regions : (m.op c.id).regions = [c.region]
  functions : ∀ o, (m.kind o).isFunction = true ∧ m.parentOp? o = some c.id ↔
    o ∈ c.functions.map FunctionSite.id
  nodup : (c.functions.map FunctionSite.id).Nodup
  names : ∀ s ∈ c.functions, m.symName? s.id = some s.code.name
  name : m.symName? c.id = some c.name

/-- The functions of a lowered contract stand in it.

**Proof sketch.** The layout gives the region of the contract, its only block, and what that
block lists.  Linkedness translates between being listed there and standing in the contract. -/
theorem Standing.of_in {c : ContractSite} (h : c.In m) (hm : m.Linked) : Standing m c := by
  have hregions : (m.op c.id).regions = [c.region] := by
    rw [h.op]
    rfl
  have hops : (m.block c.body).ops = c.functions.map FunctionSite.id := by rw [h.block]
  refine ⟨hregions, fun o => ⟨?_, fun ho => ?_⟩, ?_, fun s hs => ?_, ?_⟩
  · rintro ⟨-, hup⟩
    obtain ⟨r, hr, b, hb, ho⟩ := hm.exists_standsIn_of_up hup
    rw [hregions, List.mem_singleton] at hr
    rw [hr, h.region, List.mem_singleton] at hb
    rw [← hops, ← hb]
    exact ho
  · rw [← hops] at ho
    refine ⟨by rw [h.isFunction ho]; rfl, ?_⟩
    refine hm.up_of_standsIn ⟨c.body, ?_, ho⟩ (by rw [hregions]; exact List.mem_singleton_self _)
    rw [h.region]
    exact List.mem_singleton_self _
  · rw [← hops]
    exact hm.ops_nodup _
  · exact (h.functions s hs).1.symName?_eq
  · rw [Module.symName?, Module.attr?, h.op]
    rfl

/-- Functions stand where they stood when code is gained.

**Proof sketch.** Operations that were there keep what they are and where they stand, and those
that are new are no functions, so the functions of the contract are the same. -/
theorem Standing.of_fills {c : ContractSite} (h : Standing m c) (hm : m.Linked)
    (hfills : Fills m n) : Standing n c := by
  have hname : ∀ {o : OpId} {x : String}, m.symName? o = some x → n.symName? o = some x := by
    intro o x hx
    have hlt : o.index < m.ops.size :=
      Module.op_lt_of (fun op => (op.attrs.get? AttrName.symName).bind Attr.str? = some x)
        (by simp [show (default : Op).attrs.get? AttrName.symName = none from rfl]) hx
    rw [Module.symName?, Module.attr?, hfills.grown.ops o hlt]
    exact hx
  have hregions : (n.op c.id).regions = [c.region] := by
    rw [hfills.grown.ops c.id, h.regions]
    exact Module.op_lt_of_mem_regions (h.regions ▸ List.mem_singleton_self _)
  refine ⟨hregions, fun o => ?_, h.nodup, fun s hs => hname (h.names s hs), hname h.name⟩
  rw [← h.functions o]
  rcases Nat.lt_or_ge o.index m.ops.size with hlt | hge
  · have hop := hfills.grown.ops o hlt
    have hparent : n.parentOp? o = m.parentOp? o := by
      cases hb : (m.op o).parent with
      | none => simp [Module.parentOp?, hop, hb]
      | some b => exact Module.WellTyped.parentOp?_of_extends hm hfills.grown hb
    rw [Module.kind, hop, hparent]
    rfl
  · have hold : (m.kind o).isFunction = false := by
      rw [Module.kind, Module.op_of_le hge]
      rfl
    rw [hfills.code o hge, hold]
    simp

/-! ## Ending functions -/

/-- A block of a symbol of the body is filled by operations that declare nothing. -/
theorem Fills.of_extends (h : Staged env containers m) {f : OpId} {e : BlockId}
    (he : m.entryBlock? f = some e) (hext : Extends (· = e) m n)
    (hnew : ∀ o : OpId, m.ops.size ≤ o.index → o.index < n.ops.size →
      (n.kind o).isSymbol = false) : Fills m n := by
  refine ⟨hext.weaken fun b hb => hb ▸ h.entry_ne he, fun o hge => ?_⟩
  rcases Nat.lt_or_ge o.index n.ops.size with hlt | hge'
  · have hsymbol := hnew o hge hlt
    simp only [OpKind.isSymbol, Bool.or_eq_false_iff] at hsymbol
    exact hsymbol.1.1
  · rw [Module.kind, Module.op_of_le hge']
    rfl

/-- **A name is open no longer** when the block of what goes by it is ended.  The other open
functions stay as they are, since a block belongs to one function.

**Proof sketch.** What was declared is still declared and was not written.  The block of another
open function differs from the one that was ended, since each block has one owner, so it is as it
was. -/
theorem Splitting.of_ended {opens : String → Prop} (h : Splitting env containers opens m)
    {name : String} {f : OpId} (hf : m.Declares name f) {e : BlockId}
    (he : m.entryBlock? f = some e) (htyped : n.WellTyped env) (hfills : Fills m n)
    (hext : Extends (· = e) m n) (hsize : n.blocks.size = m.blocks.size) (hended : n.Ended e) :
    Splitting env containers (fun x => opens x ∧ x ≠ name) n := by
  have hlinked := h.typed.toLinked
  have hold {x : String} {j : OpId} (hj : m.Declares x j) := h.same_of_extends hext hj
  have hkind : ∀ {x j}, m.Declares x j → n.kind j = m.kind j := fun hj => by
    rw [Module.kind, (hold hj).1]
    rfl
  refine
    { toStaged := hfills.staged h.toStaged htyped
      serves := fun x j hj hcontainer => ?_
      marked := fun x j hj hx hcontainer => ?_
      routines := fun x j hj hx => ?_
      ended := h.ended.of_extends hlinked hext ?_ fun b hge hb => ?_ }
  · rw [hfills.declares_iff h.toStaged] at hj
    rw [hkind hj] at hcontainer
    exact (h.serves x j hj hcontainer).congr (hold hj).1
  · rw [hfills.declares_iff h.toStaged] at hj
    rw [hkind hj] at hcontainer
    rw [Module.attr?, (hold hj).1]
    exact h.marked x j hj hx hcontainer
  · rw [hfills.declares_iff h.toStaged] at hj
    obtain ⟨e', he', hops'⟩ := h.routines x j hj hx.1
    obtain ⟨helt, howner⟩ := Module.owner?_of_entryBlock? hlinked he'
    have hne : e' ≠ e := by
      rintro rfl
      rw [(Module.owner?_of_entryBlock? hlinked he).2] at howner
      obtain rfl := Option.some.inj howner
      exact hx.2 (Option.some.inj (hj.2.symm.trans hf.2))
    refine ⟨e', (hold hj).2.trans he', fun o ho => ?_⟩
    rw [hext.blocks e' helt hne] at ho
    rw [Module.kind, hext.ops o (hlinked.ops_lt ho)]
    exact hops' o ho
  · rintro b - (⟨x, j, hj, hx, hb⟩ | rfl)
    · by_cases hxname : x = name
      · obtain rfl := h.top.eq_of_declares (hxname ▸ hj) hf
        obtain rfl := Option.some.inj (hb.symm.trans he)
        exact .inr hended
      · exact .inl ⟨x, j, (hfills.declares_iff h.toStaged).2 hj, ⟨hx, hxname⟩, (hold hj).2.trans hb⟩
    · exact .inr hended
  · have hlt := hb.1
    omega

/-- A name that nothing goes by is not open. -/
theorem Splitting.of_not_declared {opens : String → Prop} (h : Splitting env containers opens m)
    {name : String} (hfree : ¬m.Declared name) :
    Splitting env containers (fun x => opens x ∧ x ≠ name) m where
  toStaged := h.toStaged
  serves := h.serves
  marked := h.marked
  routines x j hj hx := h.routines x j hj hx.1
  ended b hb := (h.ended b hb).imp_left fun ⟨x, j, hj, hx, he⟩ =>
    ⟨x, j, hj, ⟨hx, fun heq => hfree ⟨j, heq ▸ hj⟩⟩, he⟩

/-- What goes by a name is ended. -/
theorem exists_terminateNamed {opens : String → Prop} (h : Splitting env containers opens m)
    {name : String} (hname : opens name)
    (hreturning : ∀ id, m.Declares name id → env.returning id) :
    ∃ n, (terminateNamed name).run m = .ok () n ∧ Fills m n ∧
      Splitting env containers (fun x => opens x ∧ x ≠ name) n := by
  by_cases hdeclared : m.Declared name
  · obtain ⟨f, hf⟩ := hdeclared
    obtain ⟨e, he, hops⟩ := h.routines name f hf hname
    obtain ⟨n, hrun, htyped, hext, hsize, hended, hnew⟩ :=
      exists_terminate h.typed he hops (hreturning f hf)
    have hfills := Fills.of_extends h.toStaged he hext hnew
    refine ⟨n, ?_, hfills, h.of_ended hf he htyped hfills hext hsize hended⟩
    rw [terminateNamed, Outcome.run_get_bind, h.top.lookupTop?_eq_some_iff.2 hf]
    exact hrun
  · refine ⟨m, ?_, .refl m, h.of_not_declared hdeclared⟩
    rw [terminateNamed, Outcome.run_get_bind, h.top.lookupTop?_eq_none_iff.2 hdeclared]
    rfl

/-! ## Contexts -/

/-- A function of the body with a marker has a context. -/
theorem isSome_get?_classify (hm : m.TopLevel) {f : OpId} (hf : f ∈ (m.block ⟨0⟩).ops)
    (hkind : (m.kind f).isFunction = true) {marker : Bool}
    (hmarker : m.attr? f AttrName.isRuntime = some (.bool marker)) :
    ((classify m).get? f).isSome = true := by
  have hwalk : f ∈ m.walk := by
    have hstands : m.StandsIn f Module.body := ⟨⟨0⟩, by rw [hm.body]; simp, hf⟩
    exact hstands.mem_walkRegion _
  have hcontext : contextOf? m f = some (.ofMarker marker) := by
    simp [contextOf?, hmarker, Attr.bool?]
  have hentry : (f, CodeContext.ofMarker marker) ∈ (classify m).entries := by
    refine List.mem_filterMap.2 ⟨f, hwalk, ?_⟩
    rw [if_pos hkind, hcontext]
    rfl
  rw [Contexts.get?, Option.isSome_map, List.find?_isSome]
  exact ⟨_, hentry, by simp⟩

/-! ## Lowered modules -/

/-- The names of what is generated for contracts with some names. -/
def Generated (names : List String) (x : String) : Prop :=
  names ≠ [] ∧ ((∃ g : Global, x = g.name) ∨ x = returnName ∨ x = runtimeName) ∨
    deployables names ≠ [] ∧ (x = entryName ∨ x = deployName)

/-- Every function is ended, every operation with code that returns has a context unless it is a
container, and the functions of some contracts stand in them. -/
structure Sealed (env : Env) (contexts : Contexts) (containers : List OpId)
    (sites : List ContractSite) (m : Module) : Prop extends Staged env containers m where
  ended : m.EndedBut fun _ => False
  returning : ∀ f, env.returning f → f.index < m.ops.size ∧ env.symbols returnName ∧
    ((m.kind f).isContainer = true ∨ (contexts.get? f).isSome = true)
  standing : ∀ c ∈ sites, Standing m c

section Lowered

variable {source : Source} {contracts : List Contract} {sites : List ContractSite}

/-- The sites of contracts have the names of the contracts. -/
theorem names_sites (hlayout : Layout source contracts sites m) :
    sites.map ContractSite.name = contracts.map Contract.name := by
  have hnames := hlayout.names_body
  rw [hlayout.symbolsIn_body, List.map_map] at hnames
  exact hnames

/-- The names of lowered contracts are distinct. -/
theorem nodup_names (h : lowerContracts source contracts = .ok m) :
    (contracts.map Contract.name).Nodup := by
  obtain ⟨hverify, sites, hlayout⟩ := layout_of_lowerContracts h
  rw [hlayout.verify_eq] at hverify
  split at hverify
  · cases hverify
  · next hnone => exact (repeated?_eq_none hnone).1

/-- The body of a lowered module declares the contracts. -/
theorem declares_of_layout (hlayout : Layout source contracts sites m) {x : String} {j : OpId} :
    m.Declares x j ↔ ∃ c ∈ sites, j = c.id ∧ x = c.name := by
  rw [Module.Declares, hlayout.top, List.mem_map]
  have hname : ∀ c ∈ sites, m.symName? c.id = some c.name := fun c hc => by
    rw [Module.symName?, Module.attr?, (hlayout.sites c hc).op]
    rfl
  constructor
  · rintro ⟨⟨c, hc, rfl⟩, hx⟩
    exact ⟨c, hc, rfl, Option.some.inj (hx.symm.trans (hname c hc))⟩
  · rintro ⟨c, hc, rfl, rfl⟩
    exact ⟨⟨c, hc, rfl⟩, hname c hc⟩

/-- The names that the body of a lowered module declares. -/
theorem declared_of_layout (hlayout : Layout source contracts sites m) {x : String} :
    m.Declared x ↔ x ∈ contracts.map Contract.name := by
  rw [← names_sites hlayout, List.mem_map]
  constructor
  · rintro ⟨j, hj⟩
    obtain ⟨c, hc, -, rfl⟩ := (declares_of_layout hlayout).1 hj
    exact ⟨c, hc, rfl⟩
  · rintro ⟨c, hc, rfl⟩
    exact ⟨c.id, (declares_of_layout hlayout).2 ⟨c, hc, rfl, rfl⟩⟩

/-- A lowered module may be split.

**Proof sketch.** The body of a lowered module holds contracts only.  Their names are their own,
everything is typed (`complete_of_lowerContracts`), and no block of a function is left without its
end. -/
theorem splitting_of_layout (h : lowerContracts source contracts = .ok m)
    (hlayout : Layout source contracts sites m) (env : Env) :
    Splitting env (sites.map ContractSite.id) IsRoutine m := by
  have hcomplete := complete_of_lowerContracts h env
  have hops : (m.block ⟨0⟩).ops = sites.map ContractSite.id := by rw [hlayout.top]
  have hkind : ∀ o ∈ (m.block ⟨0⟩).ops, m.kind o = .sol .contract := by
    intro o ho
    obtain ⟨c, hc, rfl⟩ := List.mem_map.1 (hops ▸ ho)
    rw [Module.kind, (hlayout.sites c hc).op]
    rfl
  have hcontainer : ∀ {x j}, m.Declares x j → (m.kind j).isContainer ≠ false := fun hj => by
    rw [hkind _ hj.1]
    decide
  have hnodup := nodup_names h
  rw [← names_sites hlayout] at hnodup
  exact
    { typed := hcomplete.toWellTyped
      top :=
        { body := hlayout.body
          symbols := fun o ho => by rw [hkind o ho]; rfl
          named := fun o ho => by
            obtain ⟨c, hc, rfl⟩ := List.mem_map.1 (hops ▸ ho)
            exact ⟨c.name, ((declares_of_layout hlayout).2 ⟨c, hc, rfl, rfl⟩).2⟩
          distinct := fun o ho q hq heq => by
            obtain ⟨c, hc, rfl⟩ := List.mem_map.1 (hops ▸ ho)
            obtain ⟨d, hd, rfl⟩ := List.mem_map.1 (hops ▸ hq)
            rw [((declares_of_layout hlayout).2 ⟨c, hc, rfl, rfl⟩).2,
              ((declares_of_layout hlayout).2 ⟨d, hd, rfl, rfl⟩).2] at heq
            rw [List.inj_on_of_nodup_map hnodup hc hd (Option.some.inj heq)] }
      containers := by
        rw [← hops]
        exact List.filter_eq_self.2 fun o ho => by rw [hkind o ho]; rfl
      serves := fun x j hj hnot => absurd hnot (hcontainer hj)
      marked := fun x j hj _ hnot => absurd hnot (hcontainer hj)
      routines := fun x j hj _ => by
        obtain ⟨c, hc, rfl, -⟩ := (declares_of_layout hlayout).1 hj
        refine ⟨c.body, (hlayout.sites c hc).entryBlock?_eq, fun o ho => ?_⟩
        rw [(hlayout.sites c hc).isFunction ho]
        rfl
      ended := fun b hb => (hcomplete.ended b hb).imp_left False.elim }

/-- Symbols are declared and containers are split.

**Proof sketch.** `exists_declareSymbols` succeeds, and then `decides_splitContainers` decides.
The symbols in its conditions are translated to names of contracts, as no global and no
declaration goes by the name of the entry function. -/
theorem decides_split (env : Env) (h : lowerContracts source contracts = .ok m)
    (hlayout : Layout source contracts sites m) (hne : contracts ≠ [])
    (hsymbols : env.symbols = Generated (contracts.map Contract.name)) :
    Decides (do declareSymbols; splitContainers (sites.map ContractSite.id)) m
      (SplitsOnce (entryName ∈ contracts.map Contract.name) (contracts.map Contract.name))
      fun _ q => Gains env (sites.map ContractSite.id) m q
        (Generated (contracts.map Contract.name)) := by
  have hnames := names_sites hlayout
  have hsites : sites ≠ [] := by
    rintro rfl
    exact hne (List.map_eq_nil_iff.1 hnames.symm)
  obtain ⟨q, hrun, hgains⟩ := exists_declareSymbols (splitting_of_layout h hlayout env)
  have hnonempty : contracts.map Contract.name ≠ [] := by simpa using hne
  refine .of_run_bind hrun ?_
  refine (decides_splitContainers hlayout hgains.grown hgains.splitting (fun g => ?_) ?_
    (fun c hc => hc) fun hdeploy => ?_).congr ?_ fun _ p hp => (hgains.trans hp).congr fun x => ?_
  · rw [hsymbols]
    exact .inl ⟨hnonempty, .inl ⟨g, rfl⟩⟩
  · rw [hsymbols]
    exact .inl ⟨hnonempty, .inr (.inr rfl)⟩
  · rw [hsymbols]
    exact .inr ⟨hnames ▸ hdeploy, .inr rfl⟩
  · have hentry : q.Declared entryName ↔ entryName ∈ contracts.map Contract.name := by
      rw [hgains.declared, declared_of_layout hlayout, or_iff_left]
      rintro (⟨g, hg⟩ | hreturn)
      · exact g.name_ne.1 hg.symm
      · exact absurd hreturn (by decide)
    rw [hentry, hnames]
  · rw [hnames, Generated]
    simp only [hsites, hnonempty, ne_eq, not_false_eq_true, true_and]
    tauto

/-- When containers are split, the functions for code are ended.

**Proof sketch.** Both functions are ended by `exists_terminateNamed`, so no name is open
afterwards.  What is declared stays declared, and what may return is one of the two functions,
which has its marker. -/
theorem exists_seal (hlayout : Layout source contracts sites m) {q : Module}
    (hgains : Gains env (sites.map ContractSite.id) m q (Generated (contracts.map Contract.name)))
    (hreturning : ∀ f, env.returning f ↔ ∃ name, IsRoutine name ∧ q.Declares name f)
    (hreturn : env.symbols returnName) :
    ∃ p, (do terminateNamed deployName; terminateNamed runtimeName).run q = .ok () p ∧
      Sealed env (classify p) (sites.map ContractSite.id) sites p ∧
      (∀ x j, p.Declares x j → (p.kind j).isContainer = false → Serves p x j) ∧
      ∀ x, p.Declared x ↔
        x ∈ contracts.map Contract.name ∨ Generated (contracts.map Contract.name) x := by
  have hq := hgains.splitting
  obtain ⟨q₁, hrun₁, hfills₁, hq₁⟩ := exists_terminateNamed hq (.inl rfl) fun f hf =>
    (hreturning f).2 ⟨_, .inl rfl, hf⟩
  obtain ⟨p, hrun₂, hfills₂, hp⟩ := exists_terminateNamed hq₁ ⟨.inr rfl, by decide⟩ fun f hf =>
    (hreturning f).2 ⟨_, .inr rfl, (hfills₁.declares_iff hq.toStaged).1 hf⟩
  have hfills := hfills₁.trans hfills₂
  have hdeclares : ∀ {x j}, p.Declares x j ↔ q.Declares x j := hfills.declares_iff hq.toStaged
  refine ⟨p, ?_, { toStaged := hp.toStaged, ended := ?_, returning := ?_, standing := ?_ },
    hp.serves, fun x => ?_⟩
  · rw [EStateM.run_bind, hrun₁]
    exact hrun₂
  · intro b hb
    refine (hp.ended b hb).imp_left ?_
    rintro ⟨x, -, -, ⟨⟨hx, hdeploy⟩, hruntime⟩, -⟩
    exact hx.elim hdeploy hruntime
  · intro f hf
    obtain ⟨name, hname, hf⟩ := (hreturning f).1 hf
    rw [← hdeclares] at hf
    refine ⟨hp.typed.ops_lt hf.1, hreturn, ?_⟩
    cases hcontainer : (p.kind f).isContainer with
    | true => exact .inl rfl
    | false =>
      obtain ⟨marker, hmarker⟩ := hp.marked name f hf hname hcontainer
      have hfunction := ((hp.serves name f hf hcontainer).signature _
        (abiSignature?_routine hname)).1
      exact .inr (isSome_get?_classify hp.top hf.1 hfunction hmarker)
  · intro c hc
    have hin := (hlayout.sites c hc).mono hgains.grown
    exact (Standing.of_in hin hq.typed.toLinked).of_fills hq.typed.toLinked hfills
  · rw [← declared_of_layout hlayout, ← hgains.declared]
    exact exists_congr fun j => hdeclares

/-- **When a lowered module is split**, what it declares then, and that every function is ended.

**Proof sketch.** The operations that return are those that go by the name of a function for code
once the containers are split; so the split is looked at twice, first to learn them. -/
theorem decides_lowerContainers (h : lowerContracts source contracts = .ok m)
    (hlayout : Layout source contracts sites m) :
    Decides lowerContainers m
      (SplitsOnce (entryName ∈ contracts.map Contract.name) (contracts.map Contract.name))
      fun _ p => ∃ env : Env, env.symbols = Generated (contracts.map Contract.name) ∧
        Sealed env (classify p) (sites.map ContractSite.id) sites p ∧
        (∀ x j, p.Declares x j → (p.kind j).isContainer = false → Serves p x j) ∧
        ∀ x, p.Declared x ↔
          x ∈ contracts.map Contract.name ∨ Generated (contracts.map Contract.name) x := by
  let silent : Env := ⟨Generated (contracts.map Contract.name), fun _ => False⟩
  have hsplitting := splitting_of_layout h hlayout silent
  refine .of_run_bind hsplitting.run_needBody ?_
  refine .of_run_bind (x := get) rfl ?_
  rw [hsplitting.topContainers_eq]
  by_cases hne : contracts = []
  · subst hne
    obtain rfl : sites = [] := List.map_eq_nil_iff.1 (names_sites hlayout)
    refine (Decides.of_run rfl ?_).congr (by simp [SplitsOnce]) fun _ _ h => h
    have hsealed : Sealed silent (classify m) [] [] m :=
      { toStaged := hsplitting.toStaged
        ended := (complete_of_lowerContracts h silent).ended
        returning := fun f hf => hf.elim
        standing := by simp }
    refine ⟨silent, rfl, hsealed, hsplitting.serves, fun x => ?_⟩
    rw [declared_of_layout hlayout]
    simp [Generated, deployables]
  · obtain ⟨id, ids, hids⟩ : ∃ id ids, sites.map ContractSite.id = id :: ids := by
      rw [← List.ne_nil_iff_exists_cons]
      intro hnil
      rw [List.map_eq_nil_iff.1 hnil] at hlayout
      exact hne (List.map_eq_nil_iff.1 (names_sites hlayout).symm)
    have hsplit := (decides_split silent h hlayout hne rfl).with_run
    rw [hids] at hsplit ⊢
    simp only [← bind_assoc]
    rw [bind_assoc]
    refine (hsplit.bind (R := True) fun _ q hq => ?_).congr (iff_of_eq (and_true _)) fun _ _ h => h
    let env : Env := ⟨silent.symbols, fun f => ∃ name, IsRoutine name ∧ q.Declares name f⟩
    have hgains := ((decides_split env h hlayout hne rfl).of_ok (hids ▸ hq.1)).2
    obtain ⟨p, hrun, hp⟩ := exists_seal hlayout hgains (fun f => Iff.rfl)
      (.inl ⟨by simpa using hne, .inr (.inl rfl)⟩)
    exact .of_run hrun ⟨env, rfl, hids ▸ hp⟩

end Lowered

end ContractIR.EraVM
