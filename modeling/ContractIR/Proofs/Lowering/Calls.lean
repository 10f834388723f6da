import ContractIR.Proofs.Lowering.Meaning
import ContractIR.Proofs.Lowering.Verified
import ContractIR.Proofs.Module.Nesting

/-!
# Calling the functions of lowered modules

A function of a lowered module is found by the name of its contract and its own.  Both are unique in
their scopes: names of functions because overloading is refused, names of contracts because the
module was verified.  Calling the function runs its code, so the call answers the meaning of what
the function returns.

## Main definitions

* `ContractIR.Module.functionIn?` — the function of a name in the contract of a name.

## Main results

* `ContractIR.exists_site` — every function of the source has a place in the module, where it is
  found by name.
* `ContractIR.FunctionSite.In.call_eq` — what calling a function answers.
-/

set_option autoImplicit false

namespace ContractIR

/-! ## Finding functions -/

/-- The function of a name in the contract of a name. -/
def Module.functionIn? (m : Module) (contract name : String) : Option OpId := do
  let c ← m.lookupTop? contract
  let r ← (m.op c).regions.head?
  m.symbolIn? r name

/-- A symbol is found by its name in a region where names are distinct. -/
theorem Module.symbolIn?_of_nodup {m : Module} {r : RegionId} {id : OpId} {name : String}
    (hnodup : ((m.symbolsIn r).map Prod.snd).Nodup) (hmem : (id, name) ∈ m.symbolsIn r) :
    m.symbolIn? r name = some id := by
  rw [Module.symbolIn?]
  generalize m.symbolsIn r = symbols at hnodup hmem
  induction symbols with
  | nil => cases hmem
  | cons s symbols ih =>
    rw [List.map_cons, List.nodup_cons] at hnodup
    rcases List.mem_cons.1 hmem with rfl | hmem
    · simp
    · have hne : (s.2 == name) = false := by
        rw [beq_eq_false_iff_ne]
        rintro rfl
        exact hnodup.1 (List.mem_map.2 ⟨_, hmem, rfl⟩)
      rw [List.find?_cons, hne]
      exact ih hnodup.2 hmem

/-- The symbols of the body of a verified module have distinct names. -/
theorem Module.nodup_symbolsIn_body {m : Module} (h : m.verify = .ok ()) :
    ((m.symbolsIn Module.body).map Prod.snd).Nodup := by
  obtain ⟨u, hsymbols, -⟩ := Outcome.bind_eq_ok.1 h
  rw [Module.verifySymbols] at hsymbols
  split at hsymbols
  · cases hsymbols
  · rename_i hrepeated
    exact (repeated?_eq_none hrepeated).1

/-- A symbol in the body of a verified module is found by its name. -/
theorem Module.lookupTop?_of_verify {m : Module} (h : m.verify = .ok ()) {id : OpId}
    (hstands : m.StandsIn id Module.body) (hsymbol : (m.kind id).isSymbol = true) {name : String}
    (hname : m.symName? id = some name) : m.lookupTop? name = some id := by
  refine Module.symbolIn?_of_nodup (Module.nodup_symbolsIn_body h) ?_
  obtain ⟨b, hb, hmem⟩ := hstands
  exact List.mem_flatMap.2 ⟨b, hb, List.mem_filterMap.2 ⟨id, hmem, by simp [hsymbol, hname]⟩⟩

/-- A function is found by its name in its contract. -/
theorem ContractSite.In.symbolIn?_eq {source : Source} {contract : Contract} {c : ContractSite}
    {m : Module} (h : c.In m) (hof : c.Of source contract) {s : FunctionSite}
    (hs : s ∈ c.functions) : m.symbolIn? c.region s.code.name = some s.id := by
  have hnames : (m.symbolsIn c.region).map Prod.snd = contract.functions.map Function.name := by
    rw [h.symbolsIn, List.map_map, ← names_of_forall₂ hof.functions]
    rfl
  refine Module.symbolIn?_of_nodup ?_ ?_
  · rw [hnames]
    exact (repeated?_eq_none (repeated?_of_overloaded? hof.distinct)).1
  · rw [h.symbolsIn]
    exact List.mem_map_of_mem hs

/-- A contract is found by its name in a verified module. -/
theorem Layout.lookupTop?_eq {source : Source} {contracts : List Contract}
    {sites : List ContractSite} {m : Module} (h : Layout source contracts sites m)
    (hverify : m.verify = .ok ()) {c : ContractSite} (hc : c ∈ sites) :
    m.lookupTop? c.name = some c.id := by
  refine Module.symbolIn?_of_nodup (Module.nodup_symbolsIn_body hverify) ?_
  rw [h.symbolsIn_body]
  exact List.mem_map_of_mem hc

/-- **Every function of the source has a place in the module**, where it is found by name. -/
theorem exists_site {source : Source} {contracts : List Contract} {m : Module}
    (h : lowerContracts source contracts = .ok m) {c : Contract} (hc : c ∈ contracts)
    {f : Function} (hf : f ∈ c.functions) :
    ∃ sites, Layout source contracts sites m ∧ ∃ site ∈ sites, ∃ s ∈ site.functions,
      s.Of source f ∧ m.functionIn? c.name f.name = some s.id := by
  obtain ⟨hverify, sites, hlayout⟩ := layout_of_lowerContracts h
  obtain ⟨site, hsite, hof⟩ := Outcome.exists_right hlayout.contracts hc
  obtain ⟨s, hs, hfof⟩ := Outcome.exists_right hof.functions hf
  refine ⟨sites, hlayout, site, hsite, s, hs, hfof, ?_⟩
  have hin := hlayout.sites site hsite
  have hregion : (m.op site.id).regions.head? = some site.region := by
    rw [hin.op]
    rfl
  rw [Module.functionIn?, ← hof.name, ← hfof.name_eq, hlayout.lookupTop?_eq hverify hsite]
  simp only [Option.bind_eq_bind, Option.bind_some, hregion, hin.symbolIn?_eq hof hs]

/-! ## Calling them -/

/-- An integer type is compiled in its width. -/
theorem Lowers.width_eq {t : IntegerType} {w : Nat} (h : Lowers (.integer t) (.int w)) :
    w = t.bits.toNat := by
  obtain ⟨_, s, hs, hw⟩ := lowerType_eq_ok (h .unknown)
  obtain rfl := Option.some.inj hs
  exact Ty.int.inj hw

/-- **What calling a function answers**: nothing if it returns nothing, else the digits of the
meaning of what it returns. -/
theorem FunctionSite.In.call_eq {source : Source} {f : Function} {s : FunctionSite} {m : Module}
    {around : BlockId} (h : s.In m around) (hof : s.Of source f) {ns : List Int}
    {words : List Word} (hlen : ns.length = f.parameters.length)
    (hargs : List.Forall₂ (fun q w => Encodes q.1 q.2 w) (f.parameters.zip ns) words) :
    (f.returns = [] ∧ Level.high.call m s.id words = some []) ∨
      ∃ p e src w n, f.returns = [p] ∧ f.body = [.ret (some e) src] ∧ Lowers p.ty (.int w) ∧
        e.meaning (f.environment ns) p.ty = some n ∧
        Level.high.call m s.id words = some [.ofInt w n] := by
  obtain ⟨htypes, hruns⟩ := Function.code_runs hof hlen hargs
  rw [call_high h htypes]
  exact hruns

/-- A file without text, for nodes whose ranges name no place in a file. -/
def emptySource : Source where
  name := "C.sol"
  bytes := 0
  lines := splitLines []

end ContractIR
