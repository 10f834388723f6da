import ContractIR.Proofs.Print.Walk
import ContractIR.Proofs.Verification.Paths
import Mathlib.Data.List.Count

/-!
# Labels of printed blocks

A branch shows the labels of the blocks that it may lead to, and a block shows its own label in its
header.  Both are read off one numbering as long as the branch and the header stand in one scope, so
in the lines of a scope a label is introduced by the header of the block that is meant, or not at
all: by the first block of a region that does not show its header, and by blocks of other scopes.

## Main definitions

* `ContractIR.Print.PageLine.introduced?` — the label that a line introduces, if it is a header.
* `ContractIR.Module.scopeLines` — the lines in a scope.

## Main results

* `ContractIR.Module.Linked.filter_introduced?` — what introduces the label of a block.
* `ContractIR.Module.Linked.emit_labels` — the labels of the successors in a printed module.
-/

set_option autoImplicit false

namespace ContractIR

open Print

/-! ## Labels in lines -/

namespace Print

/-- The label that a line introduces: a header begins with it, and a colon or the arguments
follow. -/
def PageLine.introduced? (l : PageLine) : Option String :=
  if l.text.toList.head? = some '^' then
    some (String.ofList (l.text.toList.takeWhile fun c => c != ':' && c != '('))
  else none

/-- A label has no colon and no bracket in it.

**Proof sketch.** A label is a caret, two letters and decimal digits. -/
theorem notMem_blockLabel (n : Numbering) (b : BlockId) :
    ∀ c ∈ (n.blockLabel b).toList, (c != ':' && c != '(') = true := by
  have hdigits : ∀ c ∈ Nat.toDigits 10 (n.blocks.idxOf b), (c != ':' && c != '(') = true := by
    intro c hc
    have hdigit := List.all_eq_true.1 (Json.all_isDigit_toDigits (n.blocks.idxOf b)) c hc
    rw [Bool.and_eq_true, bne_iff_ne, bne_iff_ne]
    constructor <;> (rintro rfl; exact absurd hdigit (by decide))
  intro c hc
  have htext : (n.blockLabel b).toList =
      '^' :: 'b' :: 'b' :: Nat.toDigits 10 (n.blocks.idxOf b) := by
    simp [Numbering.blockLabel, String.toList_append, toString]
  rw [htext] at hc
  simp only [List.mem_cons] at hc
  rcases hc with rfl | rfl | rfl | hc
  · rfl
  · rfl
  · rfl
  · exact hdigits c hc

/-- **A header introduces the label of its block.** -/
theorem introduced?_header (n : Numbering) (m : Module) (b : BlockId) (level : Nat) :
    (⟨level, n.header m b⟩ : PageLine).introduced? = some (n.blockLabel b) := by
  obtain ⟨rest, hrest, htext⟩ : ∃ rest : List Char,
      (rest.takeWhile fun c => c != ':' && c != '(') = [] ∧
        (n.header m b).toList = (n.blockLabel b).toList ++ rest := by
    unfold Numbering.header
    cases (m.block b).args with
    | nil => exact ⟨[':'], rfl, by simp [String.toList_append]⟩
    | cons v vs =>
      exact ⟨'(' :: (Text.commas ((v :: vs).map fun w =>
        n.valueLabel w ++ ": " ++ (m.typeOf w).text) ++ "):").toList, rfl,
        by simp [String.toList_append]⟩
  rw [PageLine.introduced?, if_pos (head?_header n b), htext,
    List.takeWhile_append_of_pos (notMem_blockLabel n b), hrest, List.append_nil,
    String.ofList_toList]

/-- **Lines that are no headers introduce nothing.** -/
theorem introduced?_of_line? {m : Module} {style : Style} {colors : Bool} {level : Nat}
    {n : Numbering} {row : Row} {l : PageLine} (h : row.line? m style colors level n = some l) :
    l.introduced? = match row with
      | .header b => some (n.blockLabel b)
      | _ => none := by
  cases row with
  | header b =>
    obtain ⟨text, htext, rfl⟩ := Option.map_eq_some_iff.1 h
    cases (Option.ite_none_right_eq_some.1 htext).2
    exact introduced?_header n m b _
  | _ =>
    obtain ⟨c, hc, hhead⟩ := Row.head?_of_line? n h
    refine if_neg fun heq => ?_
    rw [hhead] at heq
    cases heq
    simp [Row.marks] at hc

end Print

namespace Module

variable {m : Module}

/-- The lines in a scope: those of an isolated operation, without the lines in isolated operations
that are nested in it. -/
def scopeLines (m : Module) (style : Style) (colors : Bool) (level : Nat) (scope : Option OpId) :
    List PageLine := m.linesOf style colors level (m.scopeRows scope)

namespace Linked

/-- If no isolated operation is nested in an isolated operation, all its rows are in its scope. -/
theorem scopeRows_eq_regions (h : m.Linked) {b : BlockId} (hbody : (m.region body).blocks = [b])
    {f : OpId} (hf : m.isAttached f = true) (hkind : (m.kind f).isIsolated = true)
    (hnone : ∀ q, Relation.TransGen m.Up q f → (m.kind q).isIsolated = false) :
    m.scopeRows (some f) = (m.op f).regions.flatMap m.regionRows := by
  rw [h.scopeRows_eq hbody hf]
  refine List.filter_eq_self.2 fun row hrow => decide_eq_true ?_
  obtain ⟨q, hq, hscope⟩ := h.exists_scope_eq hrow
  obtain ⟨x, hx, hxf⟩ := h.exists_innerScope hkind hq
  have hxkind := (inside_of_innerScope hx).1
  rcases Relation.reflTransGen_iff_eq_or_transGen.1 hxf with rfl | hxf
  · exact hscope.trans hx
  · cases hxkind.symm.trans (hnone x hxf)

/-- **What introduces the label of a block** with a number in a scope: its header, if it is in the
scope and shown, and nothing else.

**Proof sketch.** A row is kept exactly if it is the header of the block: other headers have
other labels (`Numbering.blockLabel_inj`), and other rows introduce none.  The rows of a scope are
without repetition, so the header is among them at most once, and it has a line if it is shown. -/
theorem filter_introduced? (h : m.Linked) {b : BlockId} (hbody : (m.region body).blocks = [b])
    (style : Style) (colors : Bool) (level : Nat) {scope : Option OpId} {s : BlockId}
    (hs : s ∈ (m.numbering scope).blocks) :
    ((m.scopeLines style colors level scope).filter fun l =>
        decide (l.introduced? = some ((m.numbering scope).blockLabel s))) =
      if Row.header s ∈ m.scopeRows scope ∧ m.showsHeader style s = true then
        [⟨level + (Row.header s).depth m, (m.numbering scope).header m s⟩]
      else [] := by
  -- the line of a row is kept if the row is the header of the block
  have hrow : ∀ row ∈ m.scopeRows scope,
      (row.line? m style colors level (m.numbering (row.scope m))).filter (fun l =>
        decide (l.introduced? = some ((m.numbering scope).blockLabel s))) =
      if row = .header s then row.line? m style colors level (m.numbering scope) else none := by
    intro row hmem
    rw [of_decide_eq_true (List.mem_filter.1 hmem).2]
    split
    · rename_i heq
      subst heq
      cases hl : (Row.header s).line? m style colors level (m.numbering scope) with
      | none => rfl
      | some l => exact Option.filter_some_pos (decide_eq_true (introduced?_of_line? hl))
    · rename_i hne
      refine Option.filter_eq_none_iff.2 fun l hl hlabel => ?_
      have hlabel := (introduced?_of_line? hl).symm.trans (of_decide_eq_true hlabel)
      cases row with
      | header c =>
        have heq := Numbering.blockLabel_inj hs (Option.some.inj hlabel).symm
        exact hne (congrArg Row.header heq.symm)
      | _ => cases hlabel
  have hcount : (m.scopeRows scope).count (.header s) =
      if Row.header s ∈ m.scopeRows scope then 1 else 0 :=
    List.Nodup.count ((h.nodup_rows hbody).filter _)
  have hline : (Row.header s).line? m style colors level (m.numbering scope) =
      if m.showsHeader style s = true then
        some ⟨level + (Row.header s).depth m, (m.numbering scope).header m s⟩ else none := by
    rw [Row.line?, Row.text?]
    split <;> rfl
  calc ((m.scopeLines style colors level scope).filter fun l =>
        decide (l.introduced? = some ((m.numbering scope).blockLabel s)))
      = (m.scopeRows scope).filterMap fun row =>
          if row = .header s then row.line? m style colors level (m.numbering scope) else none := by
        rw [scopeLines, linesOf, List.filter_filterMap]
        exact List.filterMap_congr hrow
    _ = ((m.scopeRows scope).filter fun row => row = .header s).filterMap fun row =>
          row.line? m style colors level (m.numbering scope) := by
        rw [List.filterMap_filter]
        simp only [decide_eq_true_eq]
    _ = (List.replicate (if Row.header s ∈ m.scopeRows scope then 1 else 0)
          (Row.header s)).filterMap fun row =>
            row.line? m style colors level (m.numbering scope) := by
        rw [List.filter_eq, hcount]
    _ = _ := by
        by_cases hmem : Row.header s ∈ m.scopeRows scope <;>
          by_cases hshown : m.showsHeader style s = true <;> simp [hmem, hshown, hline]

/-- A branch inside an operation leads to blocks of the scope that it is in. -/
theorem header_mem_scopeRows (h : m.Linked) {b : BlockId} (hbody : (m.region body).blocks = [b])
    (hverify : m.verify = .ok ()) {o p : OpId} (ho : o ∈ m.walk) (hup : m.Up o p)
    (hbranch : (m.kind o).isBranch = true) {s : BlockId} (hs : s ∈ (m.op o).successors) :
    Row.header s ∈ m.scopeRows (m.scopeOf o) := by
  obtain ⟨r, hr, c, hc, hoc⟩ := h.exists_standsIn_of_up hup
  have hparent := parent_of_mem_successors (of_verify hverify ho).1 hbranch
    ((h.op_parent o c).2 hoc) hs
  rw [(h.block_parent c r (h.blocks_lt r c hc)).2 hc] at hparent
  have hblock := h.mem_blocks_of_parent hr hparent
  have hp := h.isAttached_of_up (h.mem_walk_iff.1 ho) hup
  refine List.mem_filter.2 ⟨(h.mem_rows_iff hbody).2 ⟨p, hp, .header hr hblock⟩, ?_⟩
  exact decide_eq_true ((h.scope_header hr hblock).trans (h.scopeOf_of_up hup).symm)

/-- **The labels of successors in a printed module.**  In the lines of the scope that an operation
is in, the label of a successor is introduced by the header of the successor only, and by that if it
is in the scope and shown.  A branch inside an operation leads to blocks of its scope.  If no
isolated operation is nested in an isolated operation, the lines of its scope are all between its
opening and its closing line. -/
theorem emit_labels (h : m.Linked) {b : BlockId} (hbody : (m.region body).blocks = [b])
    (hverify : m.verify = .ok ()) {ε : Type} (style : Style) (page : Page) :
    (m.emit style : EStateM ε Page Unit).run page = .ok ()
        { page with
          lines := page.lines ++ (m.printedLines style page.colors page.level).toArray } ∧
      (∀ o ∈ m.walk, ∀ s ∈ (m.op o).successors,
        ((m.scopeLines style page.colors (page.level + 1) (m.scopeOf o)).filter fun l =>
            decide (l.introduced? = some ((m.numbering (m.scopeOf o)).blockLabel s))) =
          (if Row.header s ∈ m.scopeRows (m.scopeOf o) ∧ m.showsHeader style s = true then
            [⟨page.level + 1 + (Row.header s).depth m, (m.numbering (m.scopeOf o)).header m s⟩]
          else []) ∧
        ((m.kind o).isBranch = true → (∃ p, m.Up o p) →
          Row.header s ∈ m.scopeRows (m.scopeOf o))) ∧
      ∀ f ∈ m.walk, (m.kind f).isIsolated = true →
        (∀ q, Relation.TransGen m.Up q f → (m.kind q).isIsolated = false) →
        m.scopeLines style page.colors (page.level + 1) (some f) =
          m.linesOf style page.colors (page.level + 1) ((m.op f).regions.flatMap m.regionRows) := by
  refine ⟨h.emit_eq hbody style page, fun o ho s hs => ⟨?_, fun hbranch ⟨p, hup⟩ => ?_⟩,
    fun f hf hkind hnone => ?_⟩
  · refine h.filter_introduced? hbody style page.colors (page.level + 1) (mem_noted.2 (.inr ?_))
    have hrow : Row.op o ∈ m.rows := (h.mem_rows_iff hbody).2 ⟨o, h.mem_walk_iff.1 ho, .op⟩
    exact List.mem_flatMap.2 ⟨.op o, List.mem_filter.2 ⟨hrow, decide_eq_true rfl⟩, hs⟩
  · exact h.header_mem_scopeRows hbody hverify ho hup hbranch hs
  · rw [scopeLines, h.scopeRows_eq_regions hbody (h.mem_walk_iff.1 hf) hkind hnone]

end Linked

end Module

/-- The branches of the function with the loop lead to blocks of its scope, whose headers are
shown.

**Proof sketch.** The branch, its successors and its scope are computed, and the rest is
`Linked.emit_labels` at that branch. -/
theorem loopingFunction_labelled :
    loopingFunction.ir.Linked ∧ (loopingFunction.ir.region Module.body).blocks = [⟨0⟩] ∧
      loopingFunction.ir.verify = .ok () ∧
      (loopingFunction.ir.emit {} : EStateM Empty Page Unit).run {} = .ok ()
        { lines := #[] ++ (loopingFunction.ir.printedLines {} false 0).toArray } ∧
      (⟨4⟩ ∈ loopingFunction.ir.walk ∧ (loopingFunction.ir.op ⟨4⟩).successors = [⟨2⟩, ⟨3⟩] ∧
        loopingFunction.ir.scopeOf ⟨4⟩ = some ⟨0⟩) ∧
      ∀ s ∈ [(⟨2⟩ : BlockId), ⟨3⟩], Row.header s ∈ loopingFunction.ir.scopeRows (some ⟨0⟩) ∧
        ((loopingFunction.ir.scopeLines {} false 1 (some ⟨0⟩)).filter fun l =>
            decide (l.introduced? =
              some ((loopingFunction.ir.numbering (some ⟨0⟩)).blockLabel s))) =
          [⟨1, (loopingFunction.ir.numbering (some ⟨0⟩)).header loopingFunction.ir s⟩] := by
  have hm : loopingFunction.ir.Linked :=
    ((Builder.Reachable.new .unknown).foldl (by decide +kernel)).sound.linked
  have hbody : (loopingFunction.ir.region Module.body).blocks = [⟨0⟩] := by decide +kernel
  have hverify : loopingFunction.ir.verify = .ok () := by decide +kernel
  have hwalk : ⟨4⟩ ∈ loopingFunction.ir.walk := by decide +kernel
  have hsuccessors : (loopingFunction.ir.op ⟨4⟩).successors = [⟨2⟩, ⟨3⟩] := by decide +kernel
  have hscope : loopingFunction.ir.scopeOf ⟨4⟩ = some ⟨0⟩ := by decide +kernel
  obtain ⟨hemit, hlabels, -⟩ := hm.emit_labels hbody hverify {} {}
  refine ⟨hm, hbody, hverify, hemit, ⟨hwalk, hsuccessors, hscope⟩, fun s hs => ?_⟩
  obtain ⟨hlines, hbranch⟩ := hlabels ⟨4⟩ hwalk s (hsuccessors ▸ hs)
  have hup : loopingFunction.ir.parentOp? ⟨4⟩ = some ⟨0⟩ := by decide +kernel
  have hheader := hbranch (by decide +kernel) ⟨⟨0⟩, hup⟩
  rw [hscope] at hlines hheader
  have hshown : ∀ s ∈ [(⟨2⟩ : BlockId), ⟨3⟩], loopingFunction.ir.showsHeader {} s = true ∧
      (Row.header s).depth loopingFunction.ir = 0 := by decide +kernel
  rw [if_pos ⟨hheader, (hshown s hs).1⟩, (hshown s hs).2] at hlines
  exact ⟨hheader, hlines⟩

/-- A function whose only block branches to itself. -/
def endlessFunction : Builder :=
  [Command.build (.llvmFunc "f" ⟨[], []⟩ "external" true), .build (.toEnd ⟨1⟩),
    .build (.llvmBr ⟨1⟩)].foldl (fun b c => c.run b) (.new (.new .unknown))

/-- A function with two blocks and a function in it that has two blocks, too; its return has a block
of the inner function as successor. -/
def innerFunction : Builder :=
  [Command.build (.llvmFunc "f" ⟨[], []⟩ "external" true), .build (.appendBlock ⟨0⟩ 0 []),
    .build (.toEnd ⟨1⟩), .build (.llvmFunc "g" ⟨[], []⟩ "external" true),
    .build (.appendBlock ⟨1⟩ 0 []), .build (.toEnd ⟨3⟩), .build (.llvmBr ⟨4⟩),
    .build (.toEnd ⟨4⟩), .build (.llvmRet []), .build (.toEnd ⟨1⟩), .build (.llvmBr ⟨2⟩),
    .build (.toEnd ⟨2⟩), .build (.llvmRet []), .setSuccessors ⟨5⟩ [⟨4⟩]].foldl
    (fun b c => c.run b) (.new (.new .unknown))

/-- The label of the first block of a function is not introduced, nor is that of a successor that a
return has; and a label of an inner function is introduced once more in the text of the outer
one. -/
theorem labels_not_introduced_once :
    (endlessFunction.ir.Linked ∧ (endlessFunction.ir.region Module.body).blocks = [⟨0⟩] ∧
      endlessFunction.ir.verify = .ok () ∧
      (endlessFunction.ir.emitOn {} {}).lines = #[⟨0, "module \x7b"⟩,
        ⟨1, "\x22llvm.func\x22() (\x7b"⟩, ⟨2, "\x22llvm.br\x22()[^bb0] : () -> ()"⟩,
        ⟨1, "\x7d) \x7bsym_name = \x22f\x22, " ++
          "function_type = () -> (), linkage = \x22external\x22\x7d : () -> ()"⟩, ⟨0, "\x7d"⟩] ∧
      (endlessFunction.ir.emitOn {} {}).lines.toList.filterMap PageLine.introduced? = []) ∧
    (innerFunction.ir.Linked ∧ (innerFunction.ir.region Module.body).blocks = [⟨0⟩] ∧
      innerFunction.ir.verify = .ok () ∧
      (innerFunction.ir.op ⟨4⟩).successors = [⟨2⟩] ∧ (innerFunction.ir.op ⟨5⟩).successors = [⟨4⟩] ∧
      innerFunction.ir.scopeOf ⟨4⟩ = some ⟨0⟩ ∧ innerFunction.ir.scopeOf ⟨5⟩ = some ⟨0⟩ ∧
      (innerFunction.ir.numbering (some ⟨0⟩)).blockLabel ⟨2⟩ = "^bb1" ∧
      (innerFunction.ir.numbering (some ⟨0⟩)).blockLabel ⟨4⟩ = "^bb2" ∧
      (innerFunction.ir.linesOf {} false 1 (innerFunction.ir.opRows ⟨0⟩)).filterMap
        PageLine.introduced? = ["^bb1", "^bb1"]) := by
  refine ⟨⟨((Builder.Reachable.new .unknown).foldl (by decide +kernel)).sound.linked,
      by decide +kernel, by decide +kernel, by decide +kernel, by decide +kernel⟩,
    ⟨((Builder.Reachable.new .unknown).foldl (by decide +kernel)).sound.linked,
      by decide +kernel, by decide +kernel, by decide +kernel, by decide +kernel, by decide +kernel,
      by decide +kernel, by decide +kernel, by decide +kernel, by decide +kernel⟩⟩

end ContractIR
