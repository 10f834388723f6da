import ContractIR.Proofs.Legalization.Conversion
import ContractIR.Proofs.Lowering.Calls

/-!
# Legalization preserves the meaning of functions

A low-level line is read as the same instruction as the line that it comes from, so a function that
was converted runs the same code as before.  Every function of the source is found in the legalized
module under its own name, because the module was verified; calling it there and calling it in the
lowered module gives the same answer.

## Main results

* `ContractIR.read_low_line` — low-level lines are read as the lines that they come from.
* `ContractIR.legalize_preserves_calls` — calls before and after legalization answer the same.
-/

set_option autoImplicit false

namespace ContractIR

/-! ## Reading converted lines -/

/-- The types of a converted line's results. -/
theorem typesOf_results_lowLine {m : Module} {b : BlockId} {next : Nat} {id : OpId} {l : CodeLine}
    (h : m.IsLowLine b next id l) :
    m.typesOf (m.op id).results = l.instr.lowResult?.toList := by
  have hresults : (m.op id).results = (List.range l.instr.lowResult?.toList.length).map
      fun i => ⟨next + i⟩ := by
    rw [h.op, l.instr.length_lowResult?]
    rfl
  rw [hresults]
  cases hr : l.instr.lowResult? with
  | none => rfl
  | some ty =>
    obtain ⟨_, hvalue⟩ := h.value ty hr
    simp [Module.typesOf, Module.typeOf, hvalue]

/-- The operation of a converted line is read as the line.

**Proof sketch.** One case for each instruction: the kind, attributes, operands and result types
that a converted line is written with are those it is read from. -/
theorem read_low_line {m : Module} {b : BlockId} {next : Nat} {id : OpId} {l : CodeLine}
    (h : m.IsLowLine b next id l) : Level.low.read m id = some l.instr := by
  have htypes := typesOf_results_lowLine h
  simp only [Level.low, htypes]
  rw [h.op]
  obtain ⟨instr, location⟩ := l
  cases instr with
  | constant n ty =>
    have hread : Level.constant? (CodeLine.toLowOp ⟨.constant n ty, location⟩ next b) ty =
        some (.constant n ty) := if_pos rfl
    exact hread
  | arith op lhs rhs ty => cases op <;> rfl
  | extend signed v ty => cases signed <;> rfl
  | alloca elem => rfl
  | load cell ty => rfl
  | store v cell => rfl
  | ret values => rfl

/-- **Calling a converted function runs its code.** -/
theorem call_low {m : Module} {s : FunctionSite} (h : s.Persists m)
    (hkind : m.kind s.id = .llvm .func)
    (hbody : AlongCode (m.IsLowLine s.entry) s.next s.ops s.code.code) {words : List Word}
    (hwords : words.map Word.ty = s.code.signature.inputs) :
    Level.low.call m s.id words = execCode s.next s.code.code (.enter s.args words) := by
  have hline := hbody.imp fun next id l _ hl =>
    (⟨read_low_line hl, by rw [hl.op]; rfl⟩ :
      Level.low.read m id = some l.instr ∧ (m.op id).results = l.results next)
  have hentry : m.entryBlock? s.id = some s.entry := by
    rw [Module.entryBlock?, h.regions]
    simp [h.region]
  rw [Level.call, hentry, Option.bind_eq_bind, Option.bind_some, h.block]
  rw [if_pos ⟨hkind, by rw [FunctionSite.typesOf_args_eq h.args, hwords]⟩]
  exact run_of_alongCode hline _

/-! ## Legalized modules -/

/-- A function in the body of a verified module is found by its name. -/
theorem Hoisted.lookupTop?_eq {s : FunctionSite} {m : Module} (h : Hoisted s m)
    (hverify : m.verify = .ok ()) : m.lookupTop? s.code.name = some s.id := by
  refine Module.lookupTop?_of_verify hverify ⟨⟨0⟩, ?_, h.mem⟩ ?_ h.persists.name
  · simp [h.body]
  · rw [OpKind.isSymbol, h.persists.isFunction]
    rfl

/-- **What legalization leaves of a function**: it stands in the body, converted, and the module is
verified.

**Proof sketch.** The stages of legalization in order: the function persists while containers are
split (`extends_lowerContainers`), stands in the body after hoisting, and is kept by every pattern
(`keeps_patterns`); the last stage verifies. -/
theorem hoisted_of_legalize {source : Source} {contracts : List Contract}
    {sites : List ContractSite} {m n : Module} (hlayout : Layout source contracts sites m)
    {c : ContractSite} (hc : c ∈ sites) {s : FunctionSite} (hs : s ∈ c.functions)
    {stats : Conversion.Stats} (h : EraVM.legalize.run m = .ok stats n) :
    Hoisted s n ∧ EraVM.lowLevelTarget.illegalOps n = [] ∧ n.verify = .ok () := by
  obtain ⟨hin, hpos⟩ := (hlayout.sites c hc).functions s hs
  obtain ⟨_, p, hlower, h₁⟩ := Outcome.run_bind_eq_ok.1 h
  have hext := EraVM.extends_lowerContainers hlayout hin hpos hlower
  rw [Outcome.run_get_bind] at h₁
  obtain ⟨_, q, hhoist, h₂⟩ := Outcome.run_bind_eq_ok.1 h₁
  have hq := EraVM.hoisted_of_hoist hlayout hc hs hext hhoist
  obtain ⟨stats', r, hconvert, h₃⟩ := Outcome.run_bind_eq_ok.1 h₂
  obtain ⟨hr, hlegal⟩ := EraVM.hoisted_of_convert (EraVM.keeps_patterns _) hq hconvert
  obtain ⟨_, r', hverified, hpure⟩ := Outcome.run_bind_eq_ok.1 h₃
  cases hpure
  rw [run_verified] at hverified
  cases hv : r.verify with
  | error e =>
    rw [hv] at hverified
    cases hverified
  | ok u =>
    rw [hv] at hverified
    cases hverified
    exact ⟨hr, hlegal, hv⟩

/-- Every word of the width of a parameter is what some number is written as. -/
theorem encodes_toInt {ps : List Parameter} {words : List Word}
    (h : List.Forall₂ (fun p w => Lowers p.ty w.ty) ps words) :
    List.Forall₂ (fun q w => Encodes q.1 q.2 w) (ps.zip (words.map fun w => w.bits.toInt))
      words := by
  induction h with
  | nil => exact .nil
  | @cons p w ps words hw _ ih =>
    refine .cons ⟨hw, ?_⟩ ih
    rw [Word.ofInt, BitVec.ofInt_toInt]

/-- **Legalization preserves the meaning of functions.**  Where a module is lowered and then
legalized, every function of the source is found by name in both modules, and calling it with words
of its parameters' types gives the same answer.

**Proof sketch.** The function has a site in the lowered module (`exists_site`).  Legalization
leaves it in the body, converted and under its name (`hoisted_of_legalize`).  Both calls run the
code of the site (`call_high`, `call_low`), and that code runs (`Function.code_runs`). -/
theorem legalize_preserves_calls {source : Source} {contracts : List Contract} {m n : Module}
    {stats : Conversion.Stats} (h : lowerContracts source contracts = .ok m)
    (hlegal : EraVM.legalize.run m = .ok stats n) {c : Contract} (hc : c ∈ contracts)
    {f : Function} (hf : f ∈ c.functions) {words : List Word}
    (hwords : List.Forall₂ (fun p w => Lowers p.ty w.ty) f.parameters words) :
    ∃ id low answer, m.functionIn? c.name f.name = some id ∧ n.lookupTop? f.name = some low ∧
      Level.high.call m id words = some answer ∧ Level.low.call n low words = some answer := by
  obtain ⟨_, hlayout, site, hsite, s, hs, hof, hfound⟩ := exists_site h hc hf
  have hin := ((hlayout.sites site hsite).functions s hs).1
  obtain ⟨hhoisted, hrest, hverify⟩ := hoisted_of_legalize hlayout hsite hs hlegal
  obtain ⟨hkind, hbody⟩ := hhoisted.lowered hrest
  obtain ⟨htypes, hruns⟩ := Function.code_runs hof
    (by simpa using hwords.length_eq.symm) (encodes_toInt hwords)
  have hlookup := hhoisted.lookupTop?_eq hverify
  rw [hof.name_eq] at hlookup
  have hhigh := call_high hin htypes
  have hlow := call_low hhoisted.persists hkind hbody htypes
  rcases hruns with ⟨_, hexec⟩ | ⟨_, _, _, _, _, _, _, _, _, hexec⟩
  · exact ⟨s.id, s.id, _, hfound, hlookup, hhigh.trans hexec, hlow.trans hexec⟩
  · exact ⟨s.id, s.id, _, hfound, hlookup, hhigh.trans hexec, hlow.trans hexec⟩

/-- A contract of runtime code with the function `f(int8 a) returns (int16) { return a; }`. -/
def widenContract : Contract where
  name := "C_deployed"
  functions :=
    [{ name := "f"
       parameters := [{ declaration := 1, name := "a", ty := .integer ⟨8, true⟩ }]
       returns := [{ declaration := 2, ty := .integer ⟨16, true⟩ }]
       body := [.ret (some (.identifier "a" 1 (.integer ⟨8, true⟩) {})) {}] }]

/-- The contract is lowered and legalized, and its function answers the same in both modules.

**Proof sketch.** That both stages succeed is computed, and the rest is
`legalize_preserves_calls` at the only function. -/
theorem widenContract_calls :
    ∃ m n stats id low answer,
      lowerContracts emptySource [widenContract] = .ok m ∧
        EraVM.legalize.run m = .ok stats n ∧ m.functionIn? "C_deployed" "f" = some id ∧
        n.lookupTop? "f" = some low ∧ Level.high.call m id [⟨8, 200⟩] = some answer ∧
        Level.low.call n low [⟨8, 200⟩] = some answer := by
  have hok : ((lowerContracts emptySource [widenContract]).toOption.bind fun m =>
      EraVM.legalize.run' m).isSome = true := by
    decide +kernel
  cases h : lowerContracts emptySource [widenContract] with
  | error e =>
    rw [h] at hok
    cases hok
  | ok m =>
    cases hlegal : EraVM.legalize.run m with
    | error e n =>
      rw [h] at hok
      change (EraVM.legalize.run' m).isSome = true at hok
      delta EStateM.run' at hok
      rw [hlegal] at hok
      cases hok
    | ok stats n =>
      have hlowers : Lowers (.integer ⟨8, true⟩) (Word.ty ⟨8, 200⟩) := fun _ => rfl
      obtain ⟨id, low, answer, hfound, hlow, hcall, hcall'⟩ := legalize_preserves_calls h hlegal
        (List.mem_singleton_self _) (List.mem_singleton_self _) (.cons hlowers .nil)
      exact ⟨m, n, stats, id, low, answer, rfl, hlegal, hfound, hlow, hcall, hcall'⟩

end ContractIR
