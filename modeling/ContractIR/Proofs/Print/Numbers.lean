import ContractIR.Proofs.Print.Layout
import ContractIR.Proofs.Verification.Dominance
import Mathlib.Data.List.Flatten

/-!
# Numbers of printed values

A value gets its number where it is mentioned first.  In a module that the verifier accepts this is
where it is defined: what an operation reads is defined in front of it in the same scope.  So the
values of a scope are numbered in the order of their definitions, and an operand shows the number of
its definition.

There is one exception.  The arguments of the body's block are defined nowhere, since the body has
no header; if an operation of the body reads one, it is numbered there.

## Main definitions

* `ContractIR.Module.definedIn` — the values that are defined in a scope, in order.
* `ContractIR.Module.NumberedInOrder` — the values of a scope are numbered as they are defined.

## Main results

* `ContractIR.Module.Linked.exists_definition` — what is known at an operation is defined in front
  of it.
* `ContractIR.Module.Linked.emit_numbers` — which scopes of a printed module are numbered in order.
-/

set_option autoImplicit false

namespace ContractIR

open Print

namespace Module

variable {m : Module}

/-- The values that are defined in a scope, in the order in which their definitions are printed. -/
def definedIn (m : Module) (scope : Option OpId) : List ValueId :=
  (m.scopeRows scope).flatMap (Row.defines m)

/-! ## Definitions -/

/-- A list in which every member knows its place has no repetition. -/
theorem nodup_of_place {α β : Type} {xs : List α} {place : α → β} {index : Nat → β}
    (hindex : Function.Injective index) (h : ∀ x ∈ xs, ∀ i, place x = index i ↔ xs[i]? = some x) :
    xs.Nodup := by
  refine List.nodup_iff_getElem?_ne_getElem?.2 fun i j hij hj heq => ?_
  have hx := List.getElem?_eq_getElem hj
  have hplace := h _ (List.getElem_mem hj)
  have hsame := ((hplace i).2 (heq.trans hx)).symm.trans ((hplace j).2 hx)
  exact Nat.ne_of_lt hij (hindex hsame)

namespace Linked

/-- A value is an argument of one block only. -/
theorem eq_of_mem_args (h : m.Linked) {b c : BlockId} {v : ValueId} (hb : v ∈ (m.block b).args)
    (hc : v ∈ (m.block c).args) : b = c := by
  have hlt := h.args_lt c v hc
  obtain ⟨i, hi⟩ := List.getElem?_of_mem hb
  obtain ⟨j, hj⟩ := List.getElem?_of_mem hc
  have horigin := (h.arg_origin v b i hlt).2 hi
  rw [(h.arg_origin v c j hlt).2 hj] at horigin
  exact (ValueDef.arg.inj horigin).1.symm

/-- A row defines a value once. -/
theorem nodup_defines (h : m.Linked) (row : Row) : (row.defines m).Nodup := by
  cases row with
  | op o =>
    exact nodup_of_place (fun _ _ heq => (ValueDef.result.inj heq).2) fun v hv i =>
      h.result_origin v o i (h.results_lt o v hv)
  | header b =>
    exact nodup_of_place (fun _ _ heq => (ValueDef.arg.inj heq).2) fun v hv i =>
      h.arg_origin v b i (h.args_lt b v hv)
  | region _ => exact List.nodup_nil
  | close _ => exact List.nodup_nil

/-- A value is defined by one row only.

**Proof sketch.** Only operations and headers define values: an operation its results, a header
the arguments of its block.  Each value has one origin. -/
theorem eq_of_mem_defines (h : m.Linked) {row row' : Row} {v : ValueId} (hv : v ∈ row.defines m)
    (hv' : v ∈ row'.defines m) : row = row' := by
  cases row with
  | op o =>
    cases row' with
    | op p => rw [h.eq_of_mem_results hv hv']
    | header b => exact absurd hv' (h.notMem_args_of_mem_results hv b)
    | region _ => cases hv'
    | close _ => cases hv'
  | header b =>
    cases row' with
    | op p => exact absurd hv (h.notMem_args_of_mem_results hv' b)
    | header c => rw [h.eq_of_mem_args hv hv']
    | region _ => cases hv'
    | close _ => cases hv'
  | region _ => cases hv
  | close _ => cases hv

/-- **No value is defined twice.** -/
theorem nodup_definedIn (h : m.Linked) {b : BlockId} (hbody : (m.region body).blocks = [b])
    (scope : Option OpId) : (m.definedIn scope).Nodup :=
  List.nodup_flatMap.2 ⟨fun row _ => h.nodup_defines row, ((h.nodup_rows hbody).filter _).imp
    fun hne _ hv hv' => hne (h.eq_of_mem_defines hv hv')⟩

/-- An argument of the body's block is defined by no row. -/
theorem notMem_defines (h : m.Linked) {b : BlockId} (hbody : (m.region body).blocks = [b])
    {row : Row} (hrow : row ∈ m.rows) {v : ValueId} (hv : v ∈ (m.block b).args) :
    v ∉ row.defines m := by
  intro hdefined
  have hmem : b ∈ (m.region body).blocks := by simp [hbody]
  have hheader : v ∈ (Row.header b).defines m := hv
  obtain rfl := h.eq_of_mem_defines hdefined hheader
  obtain ⟨q, -, hof⟩ := (h.mem_rows_iff hbody).1 hrow
  cases hof with
  | header hr hb =>
    have howner := h.owner_block hr hb
    rw [(h.block_parent b body (h.blocks_lt body b hmem)).2 hmem, h.body_parent] at howner
    cases howner

/-! ## Definitions in front of uses -/

/-- The rows of the blocks of a region are a stretch of those of the module. -/
theorem blocks_infix_rows (h : m.Linked) {b : BlockId} (hbody : (m.region body).blocks = [b])
    {p : OpId} (hp : m.isAttached p = true) {r : RegionId} (hr : r ∈ (m.op p).regions) :
    (m.region r).blocks.flatMap m.blockRows <:+: m.rows := by
  have hregion : (m.region r).blocks.flatMap m.blockRows <:+: m.regionRows r := by
    rw [h.regionRows_eq hr]
    exact (List.suffix_cons _ _).isInfix
  exact (hregion.trans (infix_flatMap m.regionRows hr)).trans
    ((infix_regions_opRows m p).trans (h.opRows_infix_rows hbody hp))

end Linked

/-- Rows of two members of a list are in the order of these members. -/
theorem pair_sublist_flatMap {α β : Type} {xs : List α} {x y : α} (hxy : [x, y].Sublist xs)
    (f : α → List β) {a b : β} (ha : a ∈ f x) (hb : b ∈ f y) : [a, b].Sublist (xs.flatMap f) := by
  refine List.Sublist.trans ?_ (hxy.flatMap f)
  simpa using (List.singleton_sublist.2 ha).append (List.singleton_sublist.2 hb)

/-- What stands in front of a member of a list without repetition is in the part in front of it. -/
theorem mem_front_of_sublist {α : Type} {front back : List α} {x y : α}
    (hnodup : (front ++ x :: back).Nodup) (h : [y, x].Sublist (front ++ x :: back)) :
    y ∈ front := by
  obtain ⟨xs, ys, hsplit, hy, hx⟩ := List.cons_sublist_iff.1 h
  have hx := List.singleton_sublist.1 hx
  rcases List.append_eq_append_iff.1 hsplit.symm with ⟨zs, rfl, -⟩ | ⟨zs, rfl, hback⟩
  · exact List.mem_append_left _ hy
  · cases zs with
    | nil => simpa using hy
    | cons z zs =>
      obtain ⟨rfl, -⟩ := List.cons.inj hback
      rw [hsplit] at hnodup
      exact absurd hx ((List.nodup_append'.1 hnodup).2.2 (by simp))

namespace Linked

/-- Steps out of operations that are not isolated stay in the scope. -/
theorem scopeOf_of_out (h : m.Linked) {o p : OpId} (hout : Relation.ReflTransGen m.Out o p) :
    m.scopeOf o = m.scopeOf p := by
  induction hout with
  | refl => rfl
  | tail _ hstep ih =>
    obtain ⟨hup, hopen⟩ := hstep
    rw [ih, h.scopeOf_of_up hup, innerScope, hopen]
    rfl

/-- The body defines values for an operation that stands in it by arguments of its block, or in
front of all that is inside the operation.

**Proof sketch.** By how the value is known in the body: as an argument of its block, or as the
result of an operation in front.  The row of that operation is in front of all rows inside `a`,
because the rows follow the order of the block; there is no other block. -/
theorem exists_definition_of_top (h : m.Linked) {b : BlockId}
    (hbody : (m.region body).blocks = [b]) {o a : OpId} (ha : m.isAttached a = true)
    (hparent : m.parentOp? a = none) (hoa : m.Inside o a) {v : ValueId} (hv : m.Local v a) :
    v ∈ (m.block b).args ∨
      ∃ row, v ∈ row.defines m ∧ row.scope m = m.scopeOf a ∧ [row, .op o].Sublist m.rows := by
  have htop := (standsIn_body_iff hbody).1 (h.standsIn_body ha hparent)
  have hblock : m.bodyBlock = b := by simp [bodyBlock, hbody]
  rw [topLevel, hblock] at htop
  have hb := (h.op_parent a b).2 htop
  have hregion : (m.block b).parent = body := by
    have hmem : b ∈ (m.region body).blocks := by simp [hbody]
    exact (h.block_parent b body (h.blocks_lt body b hmem)).2 hmem
  cases hv with
  | @here c hc hv =>
    obtain rfl := Option.some.inj (hb.symm.trans hc)
    rcases hv with hv | ⟨p, hv, hsublist⟩
    · exact .inl hv
    · have hp := (h.op_parent p b).2 (hsublist.subset (by simp))
      have hpscope : m.scopeOf p = none :=
        h.scopeOf_eq_none (by rw [parentOp?, hp, Option.bind_some, hregion, h.body_parent])
      refine .inr ⟨.op p, hv, hpscope.trans (h.scopeOf_eq_none hparent).symm, ?_⟩
      rw [rows, topLevel, hblock]
      exact pair_sublist_flatMap hsublist m.opRows (h.mem_opRows_iff.2 ⟨p, .refl, .op⟩)
        (h.mem_opRows_iff.2 ⟨o, hoa, .op⟩)
  | @entry c here hv hc hne hhead =>
    obtain rfl := Option.some.inj (hb.symm.trans hc)
    rw [hregion, hbody] at hhead
    exact absurd (Option.some.inj hhead) hne

/-- A region of an operation defines values for an operation that stands in it in front of all that
is inside that one.

**Proof sketch.** By how the value is known in the region.  It is an argument or a result in the
block of `a`, or it comes from the first block of the region; in each case the row that defines it
stands in front of the rows of `a` within the rows of the region, which are a stretch of all
rows. -/
theorem exists_definition_of_up (h : m.Linked) {b : BlockId}
    (hbody : (m.region body).blocks = [b]) {o a q : OpId} (ha : m.isAttached a = true)
    (hup : m.Up a q) (hoa : m.Inside o a) {v : ValueId} (hv : m.Local v a) :
    ∃ row, v ∈ row.defines m ∧ row.scope m = m.scopeOf a ∧ [row, .op o].Sublist m.rows := by
  have hrow : Row.op o ∈ m.opRows a := h.mem_opRows_iff.2 ⟨o, hoa, .op⟩
  have hself : ∀ p, Row.op p ∈ m.opRows p := fun p => h.mem_opRows_iff.2 ⟨p, .refl, .op⟩
  obtain ⟨r, hr, c, hc, hac⟩ := h.exists_standsIn_of_up hup
  have hblocks := h.blocks_infix_rows hbody (h.isAttached_of_up ha hup) hr
  have hscope := h.scopeOf_of_up hup
  have hblock := (h.op_parent a c).2 hac
  have hregion := (h.block_parent c r (h.blocks_lt r c hc)).2 hc
  have hpscope : ∀ p d, d ∈ (m.region r).blocks → p ∈ (m.block d).ops →
      m.scopeOf p = m.scopeOf a := fun p d hd hp =>
    (h.scopeOf_of_up (h.up_of_standsIn ⟨d, hd, hp⟩ hr)).trans hscope.symm
  have hops := (infix_flatMap m.blockRows hc).trans hblocks
  cases hv with
  | @here d hd hv =>
    obtain rfl := Option.some.inj (hblock.symm.trans hd)
    rcases hv with hv | ⟨p, hv, hsublist⟩
    · have hmem := List.mem_flatMap.2 ⟨a, hac, hrow⟩
      exact ⟨.header c, hv, (h.scope_header hr hc).trans hscope.symm,
        List.Sublist.trans ((List.singleton_sublist.2 hmem).cons_cons _) hops.sublist⟩
    · exact ⟨.op p, hv, hpscope p c hc (hsublist.subset (by simp)),
        List.Sublist.trans ((pair_sublist_flatMap hsublist m.opRows (hself p) hrow).cons _)
          hops.sublist⟩
  | @entry d here hv hd hne hhead =>
    obtain rfl := Option.some.inj (hblock.symm.trans hd)
    rw [hregion] at hhead
    obtain ⟨rest, hrest⟩ := List.head?_eq_some_iff.1 hhead
    have hdmem : d ∈ (m.region r).blocks := by simp [hrest]
    have hpair : [d, c].Sublist (m.region r).blocks := by
      rw [hrest] at hc ⊢
      exact (List.singleton_sublist.2 ((List.mem_cons.1 hc).resolve_left hne)).cons_cons d
    have hlater : Row.op o ∈ m.blockRows c := mem_blockRows.2 (.inr ⟨a, hac, hrow⟩)
    rcases hv with hv | ⟨p, hp, hv⟩
    · exact ⟨.header d, hv, (h.scope_header hr hdmem).trans hscope.symm,
        (pair_sublist_flatMap hpair m.blockRows (mem_blockRows.2 (.inl rfl)) hlater).trans
          hblocks.sublist⟩
    · exact ⟨.op p, hv, hpscope p d hdmem hp,
        (pair_sublist_flatMap hpair m.blockRows (mem_blockRows.2 (.inr ⟨p, hp, hself p⟩))
          hlater).trans hblocks.sublist⟩

/-- What the region around an operation defines for it is defined in front of all that is inside the
operation, in its scope; or it is an argument of the body's block.

**Proof sketch.** Headers precede the operations of their blocks, operations of a block are printed
in order, and the first block of a region precedes all others. -/
theorem exists_definition_of_local (h : m.Linked) {b : BlockId}
    (hbody : (m.region body).blocks = [b]) {o a : OpId} (ha : m.isAttached a = true)
    (hoa : m.Inside o a) {v : ValueId} (hv : m.Local v a) :
    (v ∈ (m.block b).args ∧ m.scopeOf a = none) ∨
      ∃ row, v ∈ row.defines m ∧ row.scope m = m.scopeOf a ∧ [row, .op o].Sublist m.rows := by
  cases hparent : m.parentOp? a with
  | none =>
    exact (h.exists_definition_of_top hbody ha hparent hoa hv).imp_left fun hv =>
      ⟨hv, h.scopeOf_eq_none hparent⟩
  | some q => exact .inr (h.exists_definition_of_up hbody ha hparent hoa hv)

/-- **What is known at an operation is defined in front of it in its scope**, unless it is an
argument of the body's block. -/
theorem exists_definition (h : m.Linked) {b : BlockId} (hbody : (m.region body).blocks = [b])
    {o : OpId} (ho : m.isAttached o = true) {v : ValueId} (hlt : v.index < m.values.size)
    (hv : m.dominates v o = true) : (v ∈ (m.block b).args ∧ m.scopeOf o = none) ∨
      ∃ row, v ∈ row.defines m ∧ row.scope m = m.scopeOf o ∧ [row, .op o].Sublist m.rows := by
  obtain ⟨a, hout, hlocal⟩ := (dominates_iff h hlt).1 hv
  rw [h.scopeOf_of_out hout]
  exact h.exists_definition_of_local hbody (h.isAttached_of_inside ho (inside_of_out hout))
    (inside_of_out hout) hlocal

end Linked

/-! ## Numbers -/

/-- The values of a scope are numbered as they are defined. -/
structure NumberedInOrder (m : Module) (style : Style) (colors : Bool) (scope : Option OpId) :
    Prop where
  /-- What has a number are the values that are defined in the scope. -/
  values : (m.numbering scope).values = m.definedIn scope
  /-- Numbers count from zero. -/
  label : ∀ (i : Nat) (v : ValueId), (m.definedIn scope)[i]? = some v →
    (m.numbering scope).valueLabel v = "%" ++ toString i
  /-- No two values have the same number. -/
  distinct : ∀ v ∈ m.definedIn scope, ∀ w ∈ m.definedIn scope,
    (m.numbering scope).valueLabel v = (m.numbering scope).valueLabel w → v = w
  /-- Definitions are shown. -/
  shown : ∀ row ∈ m.scopeRows scope, row.defines m ≠ [] →
    (row.text? m style colors (m.numbering scope)).isSome = true
  /-- What is used was defined, and so numbered, in front of the use. -/
  known : ∀ front row back, m.scopeRows scope = front ++ row :: back →
    row.uses m ⊆ front.flatMap (Row.defines m)

/-- The number of a value is its place. -/
theorem valueLabel_of_getElem? {n : Numbering} (hn : n.values.Nodup) {i : Nat} {v : ValueId}
    (hv : n.values[i]? = some v) : n.valueLabel v = "%" ++ toString i := by
  obtain ⟨hi, rfl⟩ := List.getElem?_eq_some_iff.1 hv
  rw [Numbering.valueLabel, hn.idxOf_getElem i hi]

/-- A row that defines a value shows a line. -/
theorem isSome_text? {style : Style} {colors : Bool} {n : Numbering} {row : Row}
    (h : row.defines m ≠ []) : (row.text? m style colors n).isSome = true := by
  cases row with
  | op o => rfl
  | header b =>
    have hargs : (m.block b).args.isEmpty = false := by simpa [Row.defines] using h
    simp [Row.text?, showsHeader, hargs]
  | region _ => exact absurd rfl h
  | close _ => exact absurd rfl h

/-- **If what is used in a scope was defined in front of the use, the scope is numbered in
order.** -/
theorem Linked.numberedInOrder_of_known (h : m.Linked) {b : BlockId}
    (hbody : (m.region body).blocks = [b]) (style : Style) (colors : Bool) {scope : Option OpId}
    (hknown : ∀ front row back, m.scopeRows scope = front ++ row :: back →
      row.uses m ⊆ front.flatMap (Row.defines m)) : m.NumberedInOrder style colors scope := by
  have hnodup := h.nodup_definedIn hbody scope
  have hvalues : (m.numbering scope).values = m.definedIn scope := noted_mentions hnodup hknown
  exact
    { values := hvalues
      label := fun i v hv => valueLabel_of_getElem? (hvalues ▸ hnodup) (hvalues ▸ hv)
      distinct := fun v hv w _ => Numbering.valueLabel_inj (hvalues ▸ hv)
      shown := fun _ _ => isSome_text?
      known := hknown }

/-- In an accepted module, what is used in a scope was defined in front of the use, if no operation
of the scope reads an argument of the body's block.

**Proof sketch.** What an operation of the scope reads dominates it, so a row of the same scope
in front of it defines it (`exists_definition`), or it is an argument of the body, which is
excluded.  Filtering keeps the order, and no row occurs twice, so that row is in the part in
front. -/
theorem Linked.known_of_verify (h : m.Linked) {b : BlockId} (hbody : (m.region body).blocks = [b])
    (hverify : m.verify = .ok ()) {scope : Option OpId}
    (hreads : scope = none → ∀ o ∈ m.walk, m.scopeOf o = none → ∀ v ∈ (m.op o).operands,
      v ∉ (m.block b).args) {front back : List Row} {row : Row}
    (hrows : m.scopeRows scope = front ++ row :: back) :
    row.uses m ⊆ front.flatMap (Row.defines m) := by
  have hnodup : (m.scopeRows scope).Nodup := (h.nodup_rows hbody).filter _
  have hmem : row ∈ m.scopeRows scope := by simp [hrows]
  obtain ⟨hmem, hscope⟩ := List.mem_filter.1 hmem
  intro v hv
  cases row with
  | op o =>
    have hscope : m.scopeOf o = scope := of_decide_eq_true hscope
    obtain ⟨q, hq, hof⟩ := (h.mem_rows_iff hbody).1 hmem
    cases hof
    have hwalk := h.mem_walk_iff.2 hq
    have hdominates := (of_verify hverify hwalk).2 v hv
    rcases h.exists_definition hbody hq (h.operands_lt _ v hv) hdominates with
      ⟨harg, hnone⟩ | ⟨row, hdefines, hrow, hsublist⟩
    · exact absurd harg (hreads (hscope.symm.trans hnone) _ hwalk hnone v hv)
    · have hfiltered := hsublist.filter fun row => decide (row.scope m = scope)
      have hpair : ∀ x ∈ [row, Row.op o], decide (x.scope m = scope) = true :=
        List.forall_mem_cons.2 ⟨decide_eq_true (hrow.trans hscope),
          List.forall_mem_singleton.2 (decide_eq_true hscope)⟩
      rw [List.filter_eq_self.2 hpair] at hfiltered
      rw [scopeRows] at hrows hnodup
      rw [hrows] at hfiltered hnodup
      exact List.mem_flatMap.2 ⟨row, mem_front_of_sublist hnodup hfiltered, hdefines⟩
  | _ => cases hv

/-- **The numbers of a printed module.**  A page gets the lines of the module, whose values are
numbered scope by scope.  In a module that the verifier accepts, the values of a scope are numbered
as they are defined; the one exception is the scope of the body, if an operation in it reads an
argument of the body's block. -/
theorem Linked.emit_numbers (hm : m.Linked) {b : BlockId} (hbody : (m.region body).blocks = [b])
    (hverify : m.verify = .ok ()) {ε : Type} (style : Style) (page : Page) :
    (m.emit style : EStateM ε Page Unit).run page = .ok ()
        { page with
          lines := page.lines ++ (m.printedLines style page.colors page.level).toArray } ∧
      ∀ scope, m.NumberedInOrder style page.colors scope ↔
        (scope = none → ∀ o ∈ m.walk, m.scopeOf o = none → ∀ v ∈ (m.op o).operands,
          v ∉ (m.block b).args) := by
  refine ⟨hm.emit_eq hbody style page, fun scope => ⟨?_, fun hreads => ?_⟩⟩
  · rintro hnumbered rfl o ho hscope v hv harg
    have hmem : Row.op o ∈ m.scopeRows none := List.mem_filter.2
      ⟨(hm.mem_rows_iff hbody).2 ⟨o, hm.mem_walk_iff.1 ho, .op⟩, decide_eq_true hscope⟩
    obtain ⟨front, back, hrows⟩ := List.mem_iff_append.1 hmem
    obtain ⟨row, hrow, hdefines⟩ := List.mem_flatMap.1 (hnumbered.known front _ back hrows hv)
    have hrow : row ∈ m.scopeRows none := by
      rw [hrows]
      exact List.mem_append_left _ hrow
    exact hm.notMem_defines hbody (List.mem_filter.1 hrow).1 harg hdefines
  · exact hm.numberedInOrder_of_known hbody style page.colors fun _ _ _ hrows =>
      hm.known_of_verify hbody hverify hreads hrows

end Module

/-- The values of the function with the loop are numbered as they are defined, in all scopes. -/
theorem loopingFunction_numbered :
    loopingFunction.ir.Linked ∧ (loopingFunction.ir.region Module.body).blocks = [⟨0⟩] ∧
      loopingFunction.ir.verify = .ok () ∧
      (loopingFunction.ir.emit {} : EStateM Empty Page Unit).run {} = .ok ()
        { lines := #[] ++ (loopingFunction.ir.printedLines {} false 0).toArray } ∧
      ∀ scope, loopingFunction.ir.NumberedInOrder {} false scope := by
  have hm : loopingFunction.ir.Linked :=
    ((Builder.Reachable.new .unknown).foldl (by decide +kernel)).sound.linked
  have hbody : (loopingFunction.ir.region Module.body).blocks = [⟨0⟩] := by decide +kernel
  have hverify : loopingFunction.ir.verify = .ok () := by decide +kernel
  have hargs : (loopingFunction.ir.block ⟨0⟩).args = [] := by decide +kernel
  obtain ⟨hemit, hnumbers⟩ := hm.emit_numbers hbody hverify {} {}
  refine ⟨hm, hbody, hverify, hemit, fun scope => (hnumbers scope).2 fun _ _ _ _ v _ => ?_⟩
  rw [hargs]
  exact List.not_mem_nil

/-- A body whose block takes an argument, which an addition reads; its first block went to a
contract that is nowhere. -/
def argumentBody : Builder :=
  [Command.createOp { kind := .sol .contract, regions := 1 } .unknown,
    .takeBlocks Module.body ⟨1⟩, .appendBlock Module.body [.word], .build (.toEnd ⟨1⟩),
    .build (.addi ⟨0⟩ ⟨0⟩)].foldl (fun b c => c.run b) (.new (.new .unknown))

/-- The argument is numbered where it is read, and defined nowhere. -/
theorem argumentBody_numberedAtUse :
    argumentBody.ir.Linked ∧ (argumentBody.ir.region Module.body).blocks = [⟨1⟩] ∧
      argumentBody.ir.verify = .ok () ∧
      (argumentBody.ir.emitOn {} {}).lines = #[⟨0, "module \x7b"⟩,
        ⟨1, "%0 = \x22arith.addi\x22(%1, %1) : (i256, i256) -> i256"⟩, ⟨0, "\x7d"⟩] ∧
      ¬argumentBody.ir.NumberedInOrder {} false none := by
  refine ⟨((Builder.Reachable.new .unknown).foldl (by decide +kernel)).sound.linked,
    by decide +kernel, by decide +kernel, by decide +kernel, fun hnumbered => ?_⟩
  exact absurd hnumbered.values (by decide +kernel)

end ContractIR
