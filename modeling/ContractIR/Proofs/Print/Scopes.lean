import ContractIR.Proofs.Print.Rows

/-!
# Scopes of a printed module

Values and blocks are numbered anew inside every operation that is isolated from above.  Every row
is numbered in the scope of the nearest such operation around it, or in that of the module; the rows
in the scope of an operation are all among the rows of that operation.

## Main definitions

* `ContractIR.Module.scopeOf`, `innerScope` — the scope of an operation, and that of what is inside.
* `ContractIR.Print.Row.scope` — the scope of a row.
* `ContractIR.Module.scopeRows` — the rows of a scope, in order.

## Main results

* `ContractIR.Module.Linked.scopeOf_of_up` — the scope of what is directly inside.
* `ContractIR.Module.Linked.scope_ne_of_mem` — the scope of an isolated operation ends where its
  regions begin.
* `ContractIR.Module.Linked.scopeRows_eq` — the rows in the scope of an operation are in its
  regions.
-/

set_option autoImplicit false

namespace ContractIR

namespace Module

/-- The nearest operation around an operation that is isolated from above. -/
def scopeOf (m : Module) (o : OpId) : Option OpId :=
  (m.ancestors o).find? fun p => (m.kind p).isIsolated

/-- The scope of what is inside an operation. -/
def innerScope (m : Module) (p : OpId) : Option OpId :=
  if (m.kind p).isIsolated then some p else m.scopeOf p

end Module

open Print

/-- The scope of a row. -/
def Print.Row.scope (m : Module) : Row → Option OpId
  | .op id => m.scopeOf id
  | .region r => (m.region r).parent.bind m.innerScope
  | .header b => (m.region (m.block b).parent).parent.bind m.innerScope
  | .close id => m.scopeOf id

namespace Module

variable {m : Module}

/-- The rows in a scope, in order. -/
def scopeRows (m : Module) (scope : Option OpId) : List Row :=
  m.rows.filter fun row => decide (row.scope m = scope)

/-- The scope of an operation is around it. -/
theorem exists_up_of_scopeOf {o p : OpId} (hscope : m.scopeOf o = some p) :
    (m.kind p).isIsolated = true ∧ Relation.TransGen m.Up o p :=
  ⟨by simpa using List.find?_some hscope,
    transGen_of_mem_ancestorsWithin (List.mem_of_find?_eq_some hscope)⟩

/-- The scope of what is inside an operation is that operation, or is around it. -/
theorem inside_of_innerScope {o p : OpId} (hscope : m.innerScope o = some p) :
    (m.kind p).isIsolated = true ∧ m.Inside o p := by
  rw [innerScope] at hscope
  split at hscope
  · rename_i hkind
    cases hscope
    exact ⟨hkind, .refl⟩
  · obtain ⟨hkind, hup⟩ := exists_up_of_scopeOf hscope
    exact ⟨hkind, hup.to_reflTransGen⟩

namespace Linked

/-- **The scope of what is directly inside** an operation. -/
theorem scopeOf_of_up (h : m.Linked) {o p : OpId} (hup : m.Up o p) :
    m.scopeOf o = m.innerScope p := by
  rw [scopeOf, h.ancestors_of_up hup, List.find?_cons, innerScope]
  cases hkind : (m.kind p).isIsolated <;> rfl

/-- An operation with nothing around it is in the scope of the module. -/
theorem scopeOf_eq_none (h : m.Linked) {o : OpId} (ho : m.parentOp? o = none) :
    m.scopeOf o = none := by
  rw [scopeOf, h.ancestors_eq o, ho]
  rfl

/-- Inside an isolated operation, all scopes are inside. -/
theorem exists_innerScope (h : m.Linked) {o p : OpId} (hkind : (m.kind p).isIsolated = true)
    (ho : m.Inside o p) : ∃ x, m.innerScope o = some x ∧ m.Inside x p := by
  induction ho using Relation.ReflTransGen.head_induction_on with
  | refl => exact ⟨p, if_pos hkind, .refl⟩
  | @head o q hup hqp ih =>
    rw [innerScope]
    split
    · exact ⟨o, rfl, .head hup hqp⟩
    · rwa [h.scopeOf_of_up hup]

/-- The beginning of a region is in the scope of what is inside its operation. -/
theorem scope_region (h : m.Linked) {p : OpId} {r : RegionId} (hr : r ∈ (m.op p).regions) :
    (Row.region r).scope m = m.innerScope p := by
  rw [Row.scope, (h.region_parent r p).2 hr]
  rfl

/-- The operation around a block. -/
theorem owner_block (h : m.Linked) {p : OpId} {r : RegionId} {b : BlockId}
    (hr : r ∈ (m.op p).regions) (hb : b ∈ (m.region r).blocks) :
    (m.region (m.block b).parent).parent = some p := by
  rw [(h.block_parent b r (h.blocks_lt r b hb)).2 hb, (h.region_parent r p).2 hr]

/-- The header of a block is in the scope of what is inside the operation around it. -/
theorem scope_header (h : m.Linked) {p : OpId} {r : RegionId} {b : BlockId}
    (hr : r ∈ (m.op p).regions) (hb : b ∈ (m.region r).blocks) :
    (Row.header b).scope m = m.innerScope p := by
  rw [Row.scope, h.owner_block hr hb]
  rfl

/-- The scope of a row, from the operation that it belongs to. -/
theorem scope_of (h : m.Linked) {q : OpId} {row : Row} (hof : row.Of m q) :
    (row = .op q ∨ row = .close q) ∧ row.scope m = m.scopeOf q ∨
      row.scope m = m.innerScope q := by
  cases hof with
  | op => exact .inl ⟨.inl rfl, rfl⟩
  | close => exact .inl ⟨.inr rfl, rfl⟩
  | region hr => exact .inr (h.scope_region hr)
  | header hr hb => exact .inr (h.scope_header hr hb)

/-- The scope of a row in a region is that of the inside of an operation. -/
theorem exists_scope_eq (h : m.Linked) {p : OpId} {row : Row}
    (hrow : row ∈ (m.op p).regions.flatMap m.regionRows) :
    ∃ q, m.Inside q p ∧ row.scope m = m.innerScope q := by
  obtain ⟨r, hr, hmem⟩ := List.mem_flatMap.1 hrow
  rcases (h.mem_regionRows hr).1 hmem with rfl | ⟨b, hb, hmem⟩
  · exact ⟨p, .refl, h.scope_region hr⟩
  · rcases mem_blockRows.1 hmem with rfl | ⟨o, ho, hmem⟩
    · exact ⟨p, .refl, h.scope_header hr hb⟩
    · obtain ⟨q, hq, hof⟩ := h.mem_opRows_iff.1 hmem
      have hup := h.up_of_standsIn ⟨b, hb, ho⟩ hr
      rcases h.scope_of hof with ⟨-, hscope⟩ | hscope
      · -- around an operation inside there is one that is inside, too
        rcases Relation.ReflTransGen.cases_head hq with rfl | ⟨c, hqc, hc⟩
        · exact ⟨p, .refl, hscope.trans (h.scopeOf_of_up hup)⟩
        · exact ⟨c, hc.tail hup, hscope.trans (h.scopeOf_of_up hqc)⟩
      · exact ⟨q, hq.tail hup, hscope⟩

/-- **The scope around an isolated operation ends where its regions begin.** -/
theorem scope_ne_of_mem (h : m.Linked) {p : OpId} (hkind : (m.kind p).isIsolated = true) {row : Row}
    (hrow : row ∈ (m.op p).regions.flatMap m.regionRows) : row.scope m ≠ m.scopeOf p := by
  obtain ⟨q, hq, hscope⟩ := h.exists_scope_eq hrow
  obtain ⟨x, hx, hxp⟩ := h.exists_innerScope hkind hq
  intro heq
  rw [hscope, hx] at heq
  exact h.not_transGen_self x (.trans_right hxp (exists_up_of_scopeOf heq.symm).2)

/-- A row in the scope of an operation is among the rows of the operation. -/
theorem mem_opRows_of_scope (h : m.Linked) {p q : OpId} {row : Row} (hof : row.Of m q)
    (hscope : row.scope m = some p) : row ∈ m.opRows p := by
  refine h.mem_opRows_iff.2 ⟨q, ?_, hof⟩
  rcases h.scope_of hof with ⟨-, heq⟩ | heq
  · exact (exists_up_of_scopeOf (heq.symm.trans hscope)).2.to_reflTransGen
  · exact (inside_of_innerScope (heq.symm.trans hscope)).2

/-- An operation is not in its own scope. -/
theorem scopeOf_ne_self (h : m.Linked) (p : OpId) : m.scopeOf p ≠ some p := fun hscope =>
  h.not_transGen_self p (exists_up_of_scopeOf hscope).2

/-- **The rows in the scope of an operation are in its regions.**

**Proof sketch.** The rows of the operation are a stretch of all rows, and no row occurs twice.
A row of the scope is inside the operation (`mem_opRows_of_scope`), so filtering leaves nothing in
front and behind; the opening and closing rows are in the scope around. -/
theorem scopeRows_eq (h : m.Linked) {b : BlockId} (hbody : (m.region body).blocks = [b]) {p : OpId}
    (hp : m.isAttached p = true) : m.scopeRows (some p) =
      ((m.op p).regions.flatMap m.regionRows).filter fun row => decide (row.scope m = some p) := by
  obtain ⟨front, back, hrows⟩ := h.opRows_infix_rows hbody hp
  have hnodup := h.nodup_rows hbody
  rw [← hrows, List.append_assoc, List.nodup_append'] at hnodup
  obtain ⟨-, hrest, hfront⟩ := hnodup
  obtain ⟨-, -, hback⟩ := List.nodup_append'.1 hrest
  have hmem : ∀ row ∈ m.rows, row.scope m = some p → row ∈ m.opRows p := by
    intro row hrow hscope
    obtain ⟨q, -, hof⟩ := (h.mem_rows_iff hbody).1 hrow
    exact h.mem_opRows_of_scope hof hscope
  have hnone : ∀ rows : List Row, rows ⊆ m.rows → (∀ row ∈ rows, row ∉ m.opRows p) →
      (rows.filter fun row => decide (row.scope m = some p)) = [] := by
    intro rows hsub hnot
    refine List.filter_eq_nil_iff.2 fun row hrow hscope => ?_
    exact hnot row hrow (hmem row (hsub hrow) (of_decide_eq_true hscope))
  have hsub : front ⊆ m.rows ∧ back ⊆ m.rows := by
    rw [← hrows]
    exact ⟨fun x hx => by simp [hx], fun x hx => by simp [hx]⟩
  rw [scopeRows, ← hrows, List.filter_append, List.filter_append,
    hnone front hsub.1 fun row hrow hmem => hfront hrow (List.mem_append_left _ hmem),
    hnone back hsub.2 fun row hrow hmem => hback hmem hrow, opRows_eq]
  have hself := h.scopeOf_ne_self p
  simp [List.filter_append, Row.scope, hself]

end Linked

end Module

end ContractIR
