import ContractIR.Proofs.Lowering.Failures
import ContractIR.Proofs.Lowering.Layout
import ContractIR.Proofs.Typing.Rules

/-!
# Lowered modules pass the verifier

Lowering ends with a check of the module that it made.  The check never finds fault with an
operation: every line of code stands behind what it reads, has the types that its rule asks for, and
only the last one ends its block.  What it can find is a name that two contracts share.

## Main definitions

* `ContractIR.Module.DefinedBefore` — known values are defined before a place of a block.
* `ContractIR.LoweringOutcome` — what lowering can answer.

## Main results

* `ContractIR.Module.verifyUse_of_carries` — well-typed code passes the rules of its operations.
* `ContractIR.Layout.verify_eq` — a lowered module passes if its contracts have distinct names.
* `ContractIR.lowerContracts_outcome` — lowering gives a verified module, or fails because of its
  input.
-/

set_option autoImplicit false

namespace ContractIR

namespace Module

variable {m : Module}

/-! ## Definition before use -/

/-- Known values have the types that are known, and are defined in block `b` before the place
`index`. -/
def DefinedBefore (m : Module) (b : BlockId) (index : Nat) (Γ : Context) : Prop :=
  ∀ v ty, Γ v = some ty → m.typeOf v = ty ∧
    ∃ place, m.definedAt? v = some (b, place) ∧ ∀ i, place = some i → i < index

/-- The place of a line in its block. -/
theorem indexOf?_line {b : BlockId} {args : List ValueId} {pre ids : List OpId} {r : RegionId}
    {next : Nat} {id : OpId} {l : CodeLine} (hline : m.IsLine b next id l)
    (hblock : m.block b = ⟨args, pre ++ id :: ids, r⟩) (hnodup : (pre ++ id :: ids).Nodup) :
    m.indexOf? id = some pre.length := by
  have hnot : id ∉ pre := fun hmem =>
    (List.nodup_append.1 hnodup).2.2 id hmem id (List.mem_cons_self ..) rfl
  rw [indexOf?, hline.op]
  simp only [CodeLine.toOp, Option.bind_some, hblock]
  rw [List.idxOf?_eq_some_iff]
  refine ⟨by simp, by simp, fun j hj hmem => ?_⟩
  rw [List.getElem_append_left hj] at hmem
  exact hnot (hmem ▸ List.getElem_mem hj)

/-- What is defined before a line is defined at the line. -/
theorem dominates_line {b : BlockId} {args : List ValueId} {pre ids : List OpId} {r : RegionId}
    {next : Nat} {id : OpId} {l : CodeLine} {Γ : Context} (hline : m.IsLine b next id l)
    (hblock : m.block b = ⟨args, pre ++ id :: ids, r⟩) (hnodup : (pre ++ id :: ids).Nodup)
    (hΓ : m.DefinedBefore b pre.length Γ) {v : ValueId} {ty : Ty} (hv : Γ v = some ty) :
    m.dominates v id = true := by
  obtain ⟨_, place, hdef, hplace⟩ := hΓ v ty hv
  have hindex := indexOf?_line hline hblock hnodup
  rw [dominates, hdef]
  simp only [depthBound, reaches, hline.op, CodeLine.toOp, ↓reduceIte, hindex]
  cases place with
  | none => rfl
  | some i => exact decide_eq_true (hplace i rfl)

/-- The types of known values. -/
theorem DefinedBefore.typesOf {b : BlockId} {k : Nat} {Γ : Context} (hΓ : m.DefinedBefore b k Γ)
    {values : List ValueId} {types : List Ty} (h : values.map Γ = types.map some) :
    m.typesOf values = types :=
  Context.typesOf_eq (fun v ty hv => (hΓ v ty hv).1) h

/-- Behind a line, its result is defined too.

**Proof sketch.** What was defined in front still is.  The result of the line, if it has one, is
defined by the line, which stands at the place behind. -/
theorem DefinedBefore.step {b : BlockId} {args : List ValueId} {pre ids : List OpId}
    {r : RegionId} {next : Nat} {id : OpId} {l : CodeLine} {Γ : Context}
    (hΓ : m.DefinedBefore b pre.length Γ) (hline : m.IsLine b next id l)
    (hblock : m.block b = ⟨args, pre ++ id :: ids, r⟩) (hnodup : (pre ++ id :: ids).Nodup) :
    m.DefinedBefore b (pre ++ [id]).length (Γ.add next l.instr.result?) := by
  intro v ty hv
  have hold : Γ v = some ty → m.typeOf v = ty ∧
      ∃ place, m.definedAt? v = some (b, place) ∧
        ∀ i, place = some i → i < (pre ++ [id]).length := by
    intro hv
    obtain ⟨hty, place, hdef, hplace⟩ := hΓ v ty hv
    refine ⟨hty, place, hdef, fun i hi => ?_⟩
    have := hplace i hi
    simp only [List.length_append, List.length_singleton]
    omega
  cases hr : l.instr.result? with
  | none =>
    rw [hr] at hv
    exact hold hv
  | some ty' =>
    rw [hr] at hv
    simp only [Context.add] at hv
    split at hv
    · rename_i hvn
      obtain rfl : ty' = ty := Option.some.inj hv
      obtain ⟨_, hvalue⟩ := hline.value ty' hr
      rw [hvn]
      refine ⟨by rw [typeOf, hvalue], some pre.length, ?_, fun i hi => ?_⟩
      · have hindex := indexOf?_line hline hblock hnodup
        rw [definedAt?, hvalue]
        simp only [hline.op, CodeLine.toOp, hindex]
      · cases hi
        simp
    · exact hold hv

/-! ## The rules of the instructions -/

section Rules

variable {b : BlockId} {next : Nat} {id : OpId} {l : CodeLine}

/-- A line reads values of the types that are known for its operands, and gives one of the type that
its instruction gives. -/
theorem typed_line (hline : m.IsLine b next id l) {Γ : Context} {k : Nat}
    (hΓ : m.DefinedBefore b k Γ) {ins : List Ty} (hins : l.instr.operands.map Γ = ins.map some) :
    m.Typed id ins l.instr.result?.toList := by
  refine ⟨by rw [hline.op]; rfl, ?_, hline.typesOf_results⟩
  rw [hline.op]
  exact hΓ.typesOf hins

/-- **A well-typed line passes the rule of its operation.**

**Proof sketch.** One case for each typing rule.  All kinds but the return have a typing rule as
their check, which the types that the context knows satisfy; a return compares with the signature
of the function around it. -/
theorem verifyOp_line (hline : m.IsLine b next id l) {Γ : Context} {k : Nat}
    (hΓ : m.DefinedBefore b k Γ) {signature : Signature} {function : OpId}
    (htyped : l.instr.Typed signature.results Γ) (hparent : m.parentOp? id = some function)
    (hkind : m.kind function = .func .func) (hsig : m.signature? function = some signature) :
    m.verifyOp id = .ok () := by
  have hk : m.kind id = l.instr.kind := by rw [kind, hline.op]; rfl
  have hattrs : (m.op id).attrs = l.instr.attrs := by rw [hline.op]; rfl
  -- all but returns have a typing rule
  have hrule (ins : List Ty) (hrule : l.instr.kind.isTyped = true)
      (hins : l.instr.operands.map Γ = ins.map some)
      (haccepts : l.instr.kind.Accepts l.instr.attrs ins l.instr.result?.toList) :
      m.verifyOp id = .ok () := by
    have h := typed_line hline hΓ hins
    rw [verifyOp_eq_ok_iff_accepts (hk ▸ hrule), hk, hattrs, h.operands, h.results]
    exact ⟨h.regions, haccepts⟩
  obtain ⟨instr, location⟩ := l
  cases htyped with
  | constant n w => exact hrule [] rfl rfl ⟨n, w, rfl, rfl, rfl⟩
  | @arith op lhs rhs w hl hr =>
    refine hrule [.int w, .int w] (by cases op <;> rfl) ?_ ?_
    · simp [Instr.operands, hl, hr]
    · cases op <;> exact ⟨w, rfl, rfl⟩
  | @extend signed v w w' hv hlt =>
    refine hrule [.int w] (by cases signed <;> rfl) ?_ ?_
    · simp [Instr.operands, hv]
    · cases signed <;> exact ⟨w, w', hlt, rfl, rfl⟩
  | alloca elem => exact hrule [] rfl rfl ⟨elem, rfl, rfl⟩
  | @load cell ty h =>
    exact hrule [.memref ty] rfl (by simp [Instr.operands, h]) ⟨ty, rfl, rfl⟩
  | @store v cell ty hc hv =>
    exact hrule [ty, .memref ty] rfl (by simp [Instr.operands, hc, hv]) ⟨ty, rfl, rfl⟩
  | @ret values h =>
    have hline := typed_line hline hΓ h
    rw [verifyOp, hk]
    exact verifyReturn_eq_ok_iff.2 ⟨List.map_eq_nil_iff.1 hline.results, hline.regions, function,
      signature, hparent, hkind, hsig, hline.operands⟩

end Rules

/-- **Well-typed code passes the rules of its operations**, and each of them stands behind what it
reads.

**Proof sketch.** Induction along the code.  What is known at a line is defined before it
(`dominates_line`), and has the type that the rule of the line asks for (`verifyOp_line`); the
result of the line is known from the next place on (`DefinedBefore.step`). -/
theorem verifyUse_of_carries (pre : List OpId) {b : BlockId} {args : List ValueId}
    {ids : List OpId} {r : RegionId} {function : OpId} {signature : Signature} {next : Nat}
    {code : List CodeLine} {Γ : Context} (hcarries : m.Carries b next ids code)
    (hblock : m.block b = ⟨args, pre ++ ids, r⟩) (hnodup : (pre ++ ids).Nodup)
    (hregion : (m.region r).parent = some function) (hkind : m.kind function = .func .func)
    (hsig : m.signature? function = some signature)
    (htyped : CodeTyped signature.results Γ next code) (hΓ : m.DefinedBefore b pre.length Γ) :
    ∀ id ∈ ids, m.verifyUse id = .ok () := by
  induction hcarries generalizing pre Γ with
  | nil => simp
  | @cons next id ids l code hline _ ih =>
    intro o ho
    rcases List.mem_cons.1 ho with rfl | ho
    · have hparent : m.parentOp? o = some function := by
        simp only [parentOp?, hline.op, CodeLine.toOp, Option.bind_some, hblock, hregion]
      rw [verifyUse, verifyOp_line hline hΓ htyped.1 hparent hkind hsig, Outcome.ok_bind, hline.op]
      refine verifyDominance_eq_ok (fun v hv => ?_) 0
      obtain ⟨ty, hty⟩ := htyped.1.operand_known hv
      exact dominates_line hline hblock hnodup hΓ hty
    · have hcons : pre ++ id :: ids = (pre ++ [id]) ++ ids := by simp
      have hstep := hΓ.step hline hblock hnodup
      rw [hcons] at hblock hnodup
      exact ih (pre ++ [id]) hblock hnodup htyped.2 hstep o ho

end Module

/-! ## Functions -/

namespace FunctionSite.In

variable {s : FunctionSite} {m : Module} {around : BlockId} {source : Source} {f : Function}

/-- The arguments of a function are defined before its first line. -/
theorem definedBefore (h : s.In m around) :
    m.DefinedBefore s.entry 0 (argContext s.first s.code.signature.inputs) := by
  intro v ty hv
  unfold argContext at hv
  split at hv
  · rename_i hle
    have hvalue := h.args _ ty hv
    rw [show (⟨s.first + (v.index - s.first)⟩ : ValueId) = v by
      rw [← ValueId.index_eq_iff]; simp only; omega] at hvalue
    exact ⟨by rw [Module.typeOf, hvalue], none, by rw [Module.definedAt?, hvalue], by simp⟩
  · cases hv

/-- The lines of a function pass their rules. -/
theorem verifyUse_ops (h : s.In m around) (hof : s.Of source f) :
    ∀ id ∈ s.ops, m.verifyUse id = .ok () := by
  refine Module.verifyUse_of_carries [] h.body h.block nodup_ops (by rw [h.region])
    h.kind_eq h.signature?_eq (Function.code_typed hof) h.definedBefore

/-- The code of a function is its lines without a return, and a return at the end. -/
theorem exists_return (h : s.In m around) (hof : s.Of source f) :
    ∃ init last values next location, s.ops = init ++ [last] ∧
      m.IsLine s.entry next last ⟨.ret values, location⟩ ∧
      ∀ id ∈ init, (m.kind id).isTerminator = false := by
  obtain ⟨lines, values, location, hcode, hnot⟩ := Function.code_terminated hof
  have hbody := h.body
  rw [hcode] at hbody
  obtain ⟨init, rest, hops, hinit, hrest⟩ := hbody.of_append
  cases hrest with
  | @cons _ last _ _ _ hlast hnil =>
    cases hnil
    refine ⟨init, last, values, _, location, hops, hlast, fun id hid => ?_⟩
    obtain ⟨next, l, hl, hline⟩ := hinit.exists_line hid
    have hkind : m.kind id = l.instr.kind := by rw [Module.kind, hline.op]; rfl
    rw [hkind, Bool.eq_false_iff]
    intro hterm
    obtain ⟨vs, hvs⟩ := l.instr.kind_isTerminator.1 hterm
    exact hnot l hl vs hvs

/-- The block of a function ends with its return, and has no other terminator. -/
theorem verifyPlacement_ops (h : s.In m around) (hof : s.Of source f) :
    ∀ id ∈ s.ops, m.verifyPlacement id = .ok () := by
  intro id hid
  obtain ⟨init, last, values, next, location, hops, hlast, hinit⟩ := h.exists_return hof
  rw [hops] at hid
  unfold Module.verifyPlacement
  rw [if_neg]
  rintro ⟨hterm, hne⟩
  rcases List.mem_append.1 hid with hid | hid
  · rw [hinit id hid] at hterm
    cases hterm
  · rw [List.mem_singleton.1 hid] at hne
    refine hne ?_
    simp [hlast.op, CodeLine.toOp, h.block, hops]

/-- A function passes its rule.

**Proof sketch.** The rule of functions asks for a name, a signature, the arguments of the entry
block and a terminator at its end; the last line of the code is a return (`exists_return`). -/
theorem verifyUse_id (h : s.In m around) (hof : s.Of source f) :
    m.verifyUse s.id = .ok () := by
  obtain ⟨init, last, values, next, location, hops, hlast, _⟩ := h.exists_return hof
  have hterm : m.isTerminated s.entry = true := by
    simp only [Module.isTerminated, h.block, hops, List.getLast?_append, List.getLast?_singleton,
      Option.some_or, Module.kind, hlast.op]
    rfl
  have hcounts : m.verifyCounts s.id 0 0 1 = .ok () := by
    rw [Module.verifyCounts, h.op]
    rfl
  have hfunction : m.verifyFunction s.id true = .ok () := by
    have hblocks : m.region ((m.op s.id).regions.headD default) = ⟨[s.entry], some s.id⟩ := by
      rw [h.op]
      exact h.region
    simp only [Module.verifyFunction, hcounts, Outcome.ok_bind, h.symName?_eq, Module.demand,
      h.signature?_eq, hblocks, h.block, h.typesOf_args, Module.require, decide_true, ↓reduceIte,
      Module.verifyTerminated, hterm]
  rw [Module.verifyUse, Module.verifyOp, h.kind_eq, h.op]
  simp only [hfunction, Outcome.ok_bind]
  rfl

end FunctionSite.In

/-! ## Symbols -/

/-- A name that is found to be repeated occurs twice, or occurred before.

**Proof sketch.** Induction on the names, with those seen so far: the first name was seen, or
joins what was seen and is found among the rest. -/
theorem repeated?_eq_some {seen names : List String} {n : String}
    (h : Module.repeated? seen names = some n) :
    (n ∈ seen ∧ n ∈ names) ∨ 2 ≤ names.count n := by
  induction names generalizing seen with
  | nil => cases h
  | cons name names ih =>
    rw [Module.repeated?] at h
    split at h
    · rename_i hmem
      obtain rfl : name = n := Option.some.inj h
      exact .inl ⟨by simpa using hmem, by simp⟩
    · rcases ih h with ⟨hseen, hmem⟩ | hcount
      · rcases List.mem_cons.1 hseen with rfl | hseen
        · have := List.count_pos_iff.2 hmem
          refine .inr ?_
          rw [List.count_cons_self]
          omega
        · exact .inl ⟨hseen, List.mem_cons_of_mem _ hmem⟩
      · exact .inr (Nat.le_trans hcount (List.count_le_count_cons ..))

/-- If no name is found to be repeated, the names are distinct. -/
theorem repeated?_eq_none {seen names : List String} (h : Module.repeated? seen names = none) :
    names.Nodup ∧ ∀ n ∈ names, n ∉ seen := by
  induction names generalizing seen with
  | nil => simp
  | cons name names ih =>
    rw [Module.repeated?] at h
    split at h
    · cases h
    · rename_i hmem
      obtain ⟨hnodup, hseen⟩ := ih h
      refine ⟨List.nodup_cons.2 ⟨fun hn => hseen name hn (by simp), hnodup⟩, fun n hn => ?_⟩
      rcases List.mem_cons.1 hn with rfl | hn
      · simpa using hmem
      · exact fun hs => hseen n hn (List.mem_cons_of_mem _ hs)

/-- Functions that are not overloaded have no name that is repeated. -/
theorem repeated?_of_overloaded? {seen : List String} {fs : List Function}
    (h : overloaded? seen fs = none) : Module.repeated? seen (fs.map Function.name) = none := by
  induction fs generalizing seen with
  | nil => rfl
  | cons f fs ih =>
    rw [overloaded?] at h
    split at h
    · cases h
    · rename_i hmem
      rw [List.map_cons, Module.repeated?, if_neg hmem]
      exact ih h

/-- The code of a function has its name. -/
theorem FunctionSite.Of.name_eq {source : Source} {f : Function} {s : FunctionSite}
    (h : s.Of source f) : s.code.name = f.name := by
  obtain ⟨_, _, _, _, _, _, hname, _⟩ := Function.code_eq_ok h
  exact hname

/-- The names of functions at their sites. -/
theorem names_of_forall₂ {source : Source} {fs : List Function} {sites : List FunctionSite}
    (h : List.Forall₂ (FunctionSite.Of source) fs sites) :
    sites.map (fun s => s.code.name) = fs.map Function.name := by
  induction h with
  | nil => rfl
  | cons hof _ ih => rw [List.map_cons, List.map_cons, ih, hof.name_eq]

/-- The functions of a contract are the symbols of its region. -/
theorem ContractSite.In.symbolsIn {c : ContractSite} {m : Module} (h : c.In m) :
    m.symbolsIn c.region = c.functions.map fun s => (s.id, s.code.name) := by
  rw [Module.symbolsIn, h.region]
  simp only [List.flatMap_cons, List.flatMap_nil, List.append_nil, h.block, List.filterMap_map]
  rw [← List.filterMap_eq_map]
  refine List.filterMap_congr fun s hs => ?_
  have hin := (h.functions s hs).1
  simp [hin.kind_eq, hin.symName?_eq, OpKind.isSymbol, OpKind.isFunction]

/-- A contract passes its rule.

**Proof sketch.** The rule of containers asks for a name, one region of one block and no repeated
symbol; the functions of a contract that was accepted have distinct names
(`repeated?_of_overloaded?`). -/
theorem ContractSite.In.verifyUse_id {source : Source} {contract : Contract} {c : ContractSite}
    {m : Module} (h : c.In m) (hof : c.Of source contract) : m.verifyUse c.id = .ok () := by
  have hkind : m.kind c.id = .sol .contract := by
    rw [Module.kind, h.op]
    rfl
  have hname : m.symName? c.id = some c.name := by
    rw [Module.symName?, Module.attr?, h.op]
    rfl
  have hcounts : m.verifyCounts c.id 0 0 1 = .ok () := by
    rw [Module.verifyCounts, h.op]
    rfl
  have hsymbols : m.verifySymbols c.region = .ok () := by
    have hnone := repeated?_of_overloaded? hof.distinct
    rw [← names_of_forall₂ hof.functions] at hnone
    rw [Module.verifySymbols, h.symbolsIn, List.map_map]
    simp only [Function.comp_def, hnone]
  have hregion : (m.op c.id).regions.headD default = c.region := by rw [h.op]; rfl
  rw [Module.verifyUse, Module.verifyOp, hkind]
  simp only [Module.verifyContainer, hcounts, Outcome.ok_bind, hname, Option.isSome_some,
    Module.require, ↓reduceIte, hregion, h.region, List.length_singleton, decide_true, hsymbols]
  rw [h.op]
  rfl

/-! ## Whole modules -/

namespace Module

/-- What is nested in a region of a single block: an operation of the block, or what is nested in
one. -/
theorem mem_walkRegion {m : Module} {r : RegionId} {b : BlockId} {parent : Option OpId}
    (hr : m.region r = ⟨[b], parent⟩) {depth : Nat} {id : OpId} (h : id ∈ m.walkRegion depth r) :
    ∃ o ∈ (m.block b).ops, id = o ∨ ∃ d, ∃ r' ∈ (m.op o).regions, id ∈ m.walkRegion d r' := by
  cases depth with
  | zero => cases h
  | succ depth =>
    simp only [walkRegion, hr, List.flatMap_cons, List.flatMap_nil, List.append_nil,
      List.mem_flatMap, List.mem_cons] at h
    obtain ⟨o, ho, rfl | ⟨r', hr', hmem⟩⟩ := h
    · exact ⟨id, ho, .inl rfl⟩
    · exact ⟨o, ho, .inr ⟨depth, r', hr', hmem⟩⟩

end Module

/-- Only the lines of its code are nested in a function. -/
theorem FunctionSite.In.mem_walkRegion {s : FunctionSite} {m : Module} {around : BlockId}
    (h : s.In m around) {depth : Nat} {id : OpId} (hid : id ∈ m.walkRegion depth s.region) :
    id ∈ s.ops := by
  obtain ⟨o, ho, hcase⟩ := Module.mem_walkRegion h.region hid
  rw [h.block] at ho
  rcases hcase with rfl | ⟨d, r, hr, _⟩
  · exact ho
  · obtain ⟨next, l, _, hline⟩ := h.body.exists_line ho
    rw [hline.op] at hr
    cases hr

/-- Only its functions and their lines are nested in a contract. -/
theorem ContractSite.In.mem_walkRegion {c : ContractSite} {m : Module} (h : c.In m) {depth : Nat}
    {id : OpId} (hid : id ∈ m.walkRegion depth c.region) :
    ∃ s ∈ c.functions, id = s.id ∨ id ∈ s.ops := by
  obtain ⟨o, ho, hcase⟩ := Module.mem_walkRegion h.region hid
  rw [h.block] at ho
  obtain ⟨s, hs, rfl⟩ := List.mem_map.1 ho
  refine ⟨s, hs, ?_⟩
  rcases hcase with rfl | ⟨d, r, hr, hmem⟩
  · exact .inl rfl
  · rw [(h.functions s hs).1.op] at hr
    obtain rfl : r = s.region := by simpa [Module.OpSpec.toOp, Module.functionSpec] using hr
    exact .inr ((h.functions s hs).1.mem_walkRegion hmem)

namespace Layout

variable {source : Source} {contracts : List Contract} {sites : List ContractSite} {m : Module}

/-- Every operation of a lowered module is a contract, a function, or a line of a function. -/
theorem mem_walk (h : Layout source contracts sites m) {id : OpId} (hid : id ∈ m.walk) :
    ∃ c ∈ sites, id = c.id ∨ ∃ s ∈ c.functions, id = s.id ∨ id ∈ s.ops := by
  obtain ⟨o, ho, hcase⟩ := Module.mem_walkRegion h.body hid
  rw [h.top] at ho
  obtain ⟨c, hc, rfl⟩ := List.mem_map.1 ho
  refine ⟨c, hc, ?_⟩
  rcases hcase with rfl | ⟨d, r, hr, hmem⟩
  · exact .inl rfl
  · rw [(h.sites c hc).op] at hr
    obtain rfl : r = c.region := by simpa [Module.OpSpec.toOp, Module.contractSpec] using hr
    exact .inr ((h.sites c hc).mem_walkRegion hmem)

/-- The contracts are the symbols of the body. -/
theorem symbolsIn_body (h : Layout source contracts sites m) :
    m.symbolsIn Module.body = sites.map fun c => (c.id, c.name) := by
  rw [Module.symbolsIn, h.body]
  simp only [List.flatMap_cons, List.flatMap_nil, List.append_nil, h.top, List.filterMap_map]
  rw [← List.filterMap_eq_map]
  refine List.filterMap_congr fun c hc => ?_
  have hop := (h.sites c hc).op
  simp only [Function.comp_def, Module.kind, Module.symName?, Module.attr?, hop]
  rfl

/-- The names of the symbols of the body are those of the contracts. -/
theorem names_body (h : Layout source contracts sites m) :
    (m.symbolsIn Module.body).map Prod.snd = contracts.map Contract.name := by
  rw [h.symbolsIn_body, List.map_map]
  have hnames : ∀ {cs : List Contract} {ss : List ContractSite},
      List.Forall₂ (ContractSite.Of source) cs ss →
        ss.map ContractSite.name = cs.map Contract.name := by
    intro cs ss hof
    induction hof with
    | nil => rfl
    | cons hof _ ih => rw [List.map_cons, List.map_cons, ih, hof.name]
  exact hnames h.contracts

/-- Every operation of a lowered module passes its rule. -/
theorem verifyUse_walk (h : Layout source contracts sites m) :
    ∀ id ∈ m.walk, m.verifyUse id = .ok () := by
  intro id hid
  obtain ⟨c, hc, hcase⟩ := h.mem_walk hid
  obtain ⟨contract, _, hof⟩ := Outcome.exists_left h.contracts hc
  rcases hcase with rfl | ⟨s, hs, hcase⟩
  · exact (h.sites c hc).verifyUse_id hof
  · obtain ⟨f, _, hf⟩ := Outcome.exists_left hof.functions hs
    have hin := ((h.sites c hc).functions s hs).1
    rcases hcase with rfl | hmem
    · exact hin.verifyUse_id hf
    · exact hin.verifyUse_ops hf id hmem

/-- Every terminator of a lowered module stands last in its block.

**Proof sketch.** Contracts and functions are no terminators, and in the code of a function only
the last line is one (`verifyPlacement_ops`). -/
theorem verifyPlacement_walk (h : Layout source contracts sites m) :
    ∀ id ∈ m.walk, m.verifyPlacement id = .ok () := by
  intro id hid
  have hplain : (m.kind id).isTerminator = false → m.verifyPlacement id = .ok () := by
    intro hterm
    simp [Module.verifyPlacement, hterm]
  obtain ⟨c, hc, hcase⟩ := h.mem_walk hid
  obtain ⟨contract, _, hof⟩ := Outcome.exists_left h.contracts hc
  rcases hcase with rfl | ⟨s, hs, hcase⟩
  · refine hplain ?_
    rw [Module.kind, (h.sites c hc).op]
    rfl
  · obtain ⟨f, _, hf⟩ := Outcome.exists_left hof.functions hs
    have hin := ((h.sites c hc).functions s hs).1
    rcases hcase with rfl | hmem
    · refine hplain ?_
      rw [hin.kind_eq]
      rfl
    · exact hin.verifyPlacement_ops hf id hmem

/-- **The check of a lowered module** comes down to the names of the contracts. -/
theorem verify_eq (h : Layout source contracts sites m) :
    m.verify = match Module.repeated? [] (contracts.map Contract.name) with
      | some name => .error (.duplicateSymbol name)
      | none => .ok () := by
  rw [Module.verify, Module.verifySymbols, h.names_body]
  cases Module.repeated? [] (contracts.map Contract.name) with
  | some name => rfl
  | none =>
    simp only [Outcome.ok_bind, Module.verifyEach_eq_ok h.verifyPlacement_walk,
      Module.verifyEach_eq_ok h.verifyUse_walk]

end Layout

/-! ## Outcomes -/

/-- What lowering can answer: a module that the verifier accepts, a failure that is due to the
input, or the name of two contracts. -/
inductive LoweringOutcome (contracts : List Contract) : Except CompileError Module → Prop
  | verified {m : Module} (h : m.verify = .ok ()) : LoweringOutcome contracts (.ok m)
  | input {e : CompileError} (h : e.OfInput) : LoweringOutcome contracts (.error e)
  | duplicate {name : String} (h : 2 ≤ (contracts.map Contract.name).count name) :
    LoweringOutcome contracts (.error (.verification (.duplicateSymbol name)))

/-- **Lowering never builds a malformed module.**  Whatever the contracts and the source are, the
answer is a module that the verifier accepts, a failure that is due to the input, or the complaint
that two contracts share a name.

**Proof sketch.** Contracts are not added because of their input only
(`addContracts_failsOnInput`).  Once they are added, the module consists of them
(`layout_of_addContracts`), and such a module is rejected for a repeated name only
(`Layout.verify_eq`). -/
theorem lowerContracts_outcome (source : Source) (contracts : List Contract) :
    LoweringOutcome contracts (lowerContracts source contracts) := by
  rw [lowerContracts_eq]
  cases hloc : locate source {} with
  | error e => exact .input (locate_failsOnInput _ _ e hloc)
  | ok location =>
    cases hadd : addContracts source (Module.new location) contracts with
    | error e =>
      rw [Outcome.ok_bind, hadd, Outcome.error_bind]
      exact .input (addContracts_failsOnInput _ _ _ e hadd)
    | ok m =>
      rw [Outcome.ok_bind, hadd, Outcome.ok_bind]
      obtain ⟨sites, hlayout⟩ := layout_of_addContracts hadd (layout_new source location)
      have hverify := hlayout.verify_eq
      rw [List.nil_append] at hverify
      cases hrep : Module.repeated? [] (contracts.map Contract.name) with
      | none =>
        rw [hrep] at hverify
        simp only [hverify]
        exact .verified hverify
      | some name =>
        rw [hrep] at hverify
        simp only [hverify]
        rcases repeated?_eq_some hrep with ⟨hseen, _⟩ | hcount
        · cases hseen
        · exact .duplicate hcount

end ContractIR
