import ContractIR.Proofs.Lowering.Verified

/-!
# The operations of lowered modules, in order

A walk over a lowered module meets the contracts in order, behind each contract its functions, and
behind each function the lines of its code.

## Main definitions

* `ContractIR.Module.Shows` — an operation is what a line of code says.

## Main results

* `ContractIR.Layout.walk_eq` — the operations of a lowered module.
* `ContractIR.Module.Carries.forall₂` — the operations of code are its lines.
-/

set_option autoImplicit false

namespace ContractIR

/-! ## The walk -/

/-- The operations nested in a function are those of its code. -/
theorem FunctionSite.In.walkRegion_eq {s : FunctionSite} {m : Module} {around : BlockId}
    (h : s.In m around) (depth : Nat) : m.walkRegion (depth + 1) s.region = s.ops := by
  have hflat : ∀ o ∈ s.ops, (o :: (m.op o).regions.flatMap (m.walkRegion depth)) = [o] := by
    intro o ho
    obtain ⟨next, l, _, hline⟩ := h.body.exists_line ho
    rw [hline.op]
    rfl
  rw [Module.walkRegion, h.region]
  simp only [List.flatMap_cons, List.flatMap_nil, List.append_nil, h.block]
  rw [List.flatMap_congr hflat]
  exact List.flatMap_singleton' _

/-- The operation of a function is not that of its contract. -/
theorem ContractSite.In.id_ne {c : ContractSite} {m : Module} (h : c.In m) {s : FunctionSite}
    (hs : s ∈ c.functions) : s.id ≠ c.id := by
  intro heq
  have hkind := (h.functions s hs).1.kind_eq
  rw [heq, Module.kind, h.op] at hkind
  cases hkind

/-- The operations nested in a contract are its functions, each with its code.

**Proof sketch.** The walk goes into the one block of the contract and into every function in it,
whose nested operations are its code.  The depth suffices, since the contract and the function are
different operations. -/
theorem ContractSite.In.walkRegion_eq {c : ContractSite} {m : Module} (h : c.In m) :
    m.walkRegion m.ops.size c.region = c.functions.flatMap fun s => s.id :: s.ops := by
  obtain ⟨depth, hdepth⟩ : ∃ depth, m.ops.size = depth + 1 :=
    ⟨m.ops.size - 1, by have := h.id_lt; omega⟩
  rw [hdepth, Module.walkRegion, h.region]
  simp only [List.flatMap_cons, List.flatMap_nil, List.append_nil, h.block, List.flatMap_map]
  refine List.flatMap_congr fun s hs => ?_
  have hin := (h.functions s hs).1
  -- The contract and the function are two operations, so there is depth left for the function.
  obtain ⟨rest, rfl⟩ : ∃ rest, depth = rest + 1 := by
    have hne : s.id.index ≠ c.id.index := fun heq => h.id_ne hs (OpId.index_eq_iff.1 heq)
    have hs := hin.id_lt
    have hc := h.id_lt
    exact ⟨depth - 1, by omega⟩
  have hregions : (m.op s.id).regions = [s.region] := by
    rw [hin.op]
    rfl
  rw [hregions, List.flatMap_singleton, hin.walkRegion_eq]

/-- **The operations of a lowered module** are its contracts, each with its functions, each with its
code. -/
theorem Layout.walk_eq {source : Source} {contracts : List Contract} {sites : List ContractSite}
    {m : Module} (h : Layout source contracts sites m) :
    m.walk = sites.flatMap fun c => c.id :: c.functions.flatMap fun s => s.id :: s.ops := by
  rw [Module.walk, Module.depthBound, Module.walkRegion, h.body]
  simp only [List.flatMap_cons, List.flatMap_nil, List.append_nil, h.top, List.flatMap_map]
  refine List.flatMap_congr fun c hc => ?_
  have hregions : (m.op c.id).regions = [c.region] := by
    rw [(h.sites c hc).op]
    rfl
  rw [hregions, List.flatMap_singleton, (h.sites c hc).walkRegion_eq]

/-! ## Lines -/

/-- Two lists that are related to a third one, member by member, are related to each other. -/
theorem forall₂_trans {α β γ : Type} {R : α → β → Prop} {S : β → γ → Prop} {T : α → γ → Prop}
    (hRS : ∀ a b c, R a b → S b c → T a c) {xs : List α} {ys : List β} {zs : List γ}
    (h : List.Forall₂ R xs ys) (k : List.Forall₂ S ys zs) : List.Forall₂ T xs zs := by
  induction h generalizing zs with
  | nil =>
    cases k
    exact .nil
  | cons hR _ ih =>
    cases k with
    | cons hS hrest => exact .cons (hRS _ _ _ hR hS) (ih hrest)

/-- An operation has the kind, the operands and the location of a line. -/
structure Module.Shows (m : Module) (id : OpId) (l : CodeLine) : Prop where
  kind : m.kind id = l.instr.kind
  operands : (m.op id).operands = l.instr.operands
  location : (m.op id).location = l.location

/-- A line is what it says. -/
theorem Module.IsLine.shows {m : Module} {b : BlockId} {next : Nat} {id : OpId} {l : CodeLine}
    (h : m.IsLine b next id l) : m.Shows id l where
  kind := by rw [Module.kind, h.op]; rfl
  operands := by rw [h.op]; rfl
  location := by rw [h.op]; rfl

/-- The operations of code are its lines. -/
theorem Module.Carries.forall₂ {m : Module} {b : BlockId} {next : Nat} {ids : List OpId}
    {code : List CodeLine} (h : m.Carries b next ids code) :
    List.Forall₂ m.Shows ids code := by
  induction h with
  | nil => exact .nil
  | cons line _ ih => exact .cons line.shows ih

namespace AlongCode

variable {P : Nat → OpId → CodeLine → Prop} {next : Nat} {ids : List OpId} {code : List CodeLine}

/-- Code has one operation for every line. -/
theorem length_eq (h : AlongCode P next ids code) : ids.length = code.length := by
  induction h with
  | nil => rfl
  | cons _ _ ih => rw [List.length_cons, List.length_cons, ih]

/-- An operation and the line at its place have the property. -/
theorem of_getElem? (h : AlongCode P next ids code) {k : Nat} {id : OpId} {l : CodeLine}
    (hid : ids[k]? = some id) (hl : code[k]? = some l) :
    P (next + codeCount (code.take k)) id l := by
  induction h generalizing k with
  | nil => simp at hl
  | @cons next id' ids l' code line _ ih =>
    cases k with
    | zero =>
      obtain rfl : id' = id := by simpa using hid
      obtain rfl : l' = l := by simpa using hl
      exact line
    | succ k =>
      have hP := ih (k := k) (by simpa using hid) (by simpa using hl)
      rwa [List.take_succ_cons, codeCount_cons, ← Nat.add_assoc]

/-- Every line has an operation at its place. -/
theorem exists_op (h : AlongCode P next ids code) {k : Nat} {l : CodeLine}
    (hl : code[k]? = some l) :
    ∃ id, ids[k]? = some id ∧ P (next + codeCount (code.take k)) id l := by
  have hlt : k < ids.length := h.length_eq ▸ (List.getElem?_eq_some_iff.1 hl).1
  exact ⟨ids[k], List.getElem?_eq_getElem hlt, h.of_getElem? (List.getElem?_eq_getElem hlt) hl⟩

end AlongCode

end ContractIR
