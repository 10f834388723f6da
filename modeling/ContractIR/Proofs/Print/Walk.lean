import ContractIR.Proofs.Print.Layout
import ContractIR.Proofs.Module.Reachable

/-!
# Printed modules and the walk

The walk lists the operations of a module, an operation in front of what is nested in it.  A printed
module shows them in the same order: every operation has one line that opens it, and, if it has
regions, one that closes it behind the lines of all that is nested in it.  Which lines these are can
be seen by their first character (`PageLine.isOpening`).

## Main definitions

* `ContractIR.Print.Row.marks` — the characters that the line of a row may begin with.
* `ContractIR.Module.openingLine`, `closingLine` — the lines of an operation.
* `ContractIR.Module.Encloses` — where an operation stands in lines that show several ones.

## Main results

* `ContractIR.Module.Linked.emit_walk` — a printed module follows the walk.
-/

set_option autoImplicit false

namespace ContractIR

open Print

/-! ## First characters -/

namespace Print

/-- The characters that the line of a row may begin with. -/
def Row.marks : Row → List Char
  | .op _ => ['%', '\x22']
  | .header _ => ['^']
  | _ => ['\x7d']

section Marks

variable {m : Module} (n : Numbering)

/-- A list of values starts with the mark of values. -/
theorem head?_commas_valueLabel (v : ValueId) (vs : List ValueId) :
    (Text.commas (n.valueLabel v :: vs.map n.valueLabel)).toList.head? = some '%' := by
  cases vs <;> simp [Numbering.valueLabel, String.toList_append]

/-- A kind starts with a quotation mark. -/
theorem head?_kindText (colors : Bool) (kind : OpKind) :
    (kindText colors kind).toList.head? = some '\x22' := by
  cases colors <;> simp [kindText, String.toList_append]

/-- An operation begins with a result, or with its kind. -/
theorem head?_head (colors : Bool) (o : OpId) :
    ∃ c ∈ ['%', '\x22'], (n.head colors m o).toList.head? = some c := by
  cases hresults : (m.op o).results with
  | nil =>
    have hkind := head?_kindText colors (m.op o).kind
    refine ⟨'\x22', by simp, ?_⟩
    simp [Numbering.head, hresults, String.toList_append, List.head?_append, hkind]
  | cons v vs =>
    have hresult := head?_commas_valueLabel n v vs
    refine ⟨'%', by simp, ?_⟩
    simp [Numbering.head, hresults, String.toList_append, List.head?_append, hresult]

/-- A header starts with the mark of blocks. -/
theorem head?_header (b : BlockId) : (n.header m b).toList.head? = some '^' := by
  unfold Numbering.header
  cases (m.block b).args <;> simp [Numbering.blockLabel, String.toList_append]

/-- **A line begins with a character that tells what it shows.** -/
theorem Row.head?_of_text? {style : Style} {colors : Bool} {row : Row} {text : String}
    (h : row.text? m style colors n = some text) : ∃ c ∈ row.marks, text.toList.head? = some c := by
  cases row with
  | op o =>
    obtain ⟨c, hc, hhead⟩ := head?_head (m := m) n colors o
    cases h
    exact ⟨c, hc, by simp [String.toList_append, List.head?_append, hhead]⟩
  | header b =>
    cases (Option.ite_none_right_eq_some.1 h).2
    exact ⟨'^', by simp [Row.marks], head?_header n b⟩
  | region r =>
    cases (Option.ite_none_left_eq_some.1 h).2
    exact ⟨'\x7d', by simp [Row.marks], by simp⟩
  | close o =>
    cases (Option.ite_none_left_eq_some.1 h).2
    exact ⟨'\x7d', by simp [Row.marks], by simp [String.toList_append]⟩

/-- A line starts with one of the marks of its row. -/
theorem Row.head?_of_line? {style : Style} {colors : Bool} {level : Nat} {row : Row} {l : PageLine}
    (h : row.line? m style colors level n = some l) :
    ∃ c ∈ row.marks, l.text.toList.head? = some c := by
  obtain ⟨text, htext, rfl⟩ := Option.map_eq_some_iff.1 h
  exact Row.head?_of_text? n htext

end Marks

/-- Whether a line opens an operation: it begins with a value or with a quoted kind. -/
def PageLine.isOpening (l : PageLine) : Bool :=
  decide (l.text.toList.head? = some '%' ∨ l.text.toList.head? = some '\x22')

end Print

namespace Module

/-! ## Lines of operations -/

section Lines

variable (m : Module) (style : Style) (colors : Bool) (level : Nat)

/-- The line that opens an operation, if those of the body are at a level. -/
def openingLine (o : OpId) : PageLine where
  level := level + (m.ancestors o).length
  text := (m.numbering (m.scopeOf o)).head colors m o ++
    if (m.op o).regions.isEmpty then trailer style m o else " (\x7b"

/-- The line that closes an operation with regions. -/
def closingLine (o : OpId) : PageLine where
  level := level + (m.ancestors o).length
  text := "\x7d)" ++ trailer style m o

/-- Lines open some operations, one after the other, and no others. -/
def Opens (lines : List PageLine) (ops : List OpId) : Prop :=
  lines.filter PageLine.isOpening = ops.map (m.openingLine style colors level)

/-- Where an operation with regions stands in lines that open some operations: behind lines that
open what is listed before it comes its opening line, then come lines that open all that is nested
in it, then its closing line, and lines that open what is listed behind. -/
def Encloses (ops : List OpId) (lines : List PageLine) (o : OpId) (inside : List PageLine) : Prop :=
  ∃ before after front back, ops = before ++ m.walkOp o ++ after ∧
    lines = front ++ m.openingLine style colors level o ::
      (inside ++ m.closingLine style level o :: back) ∧
    m.Opens style colors level front before ∧
    m.Opens style colors level inside (m.walkOp o).tail ∧ m.Opens style colors level back after

variable {m style colors level}

/-- Rows are printed part by part. -/
theorem linesOf_append (rows rows' : List Row) : m.linesOf style colors level (rows ++ rows') =
    m.linesOf style colors level rows ++ m.linesOf style colors level rows' := List.filterMap_append

/-- The line of a row opens the operation that the row begins with, or opens nothing. -/
theorem filter_isOpening_line? (row : Row) :
    (row.line? m style colors level (m.numbering (row.scope m))).filter PageLine.isOpening =
      row.op?.map (m.openingLine style colors level) := by
  cases row with
  | op o =>
    have hline : (Row.op o).line? m style colors level (m.numbering ((Row.op o).scope m)) =
      some (m.openingLine style colors level o) := rfl
    obtain ⟨c, hc, hhead⟩ := Row.head?_of_line? _ hline
    have hopening : (m.openingLine style colors level o).isOpening = true := by
      simp only [Row.marks, List.mem_cons, List.not_mem_nil, or_false] at hc
      rcases hc with rfl | rfl <;> simp [PageLine.isOpening, hhead]
    exact Option.filter_some_pos hopening
  | _ =>
    refine Option.filter_eq_none_iff.2 fun l hl => ?_
    obtain ⟨c, hc, hhead⟩ := Row.head?_of_line? _ hl
    cases List.mem_singleton.1 hc
    simp [PageLine.isOpening, hhead]

/-- Lines of rows open the operations that the rows begin with. -/
theorem opens_linesOf (rows : List Row) : m.Opens style colors level
    (m.linesOf style colors level rows) (rows.filterMap Row.op?) := by
  rw [Opens, linesOf, List.filter_filterMap, List.map_filterMap]
  exact List.filterMap_congr fun row _ => filter_isOpening_line? row

/-- The operations that the rows of the regions of an operation begin with are nested in it. -/
theorem filterMap_regions (m : Module) (o : OpId) :
    ((m.op o).regions.flatMap m.regionRows).filterMap Row.op? = (m.walkOp o).tail := by
  have hwalk := filterMap_opRows m o
  rw [opRows, filterMap_rowsAround, ← List.filterMap_flatMap] at hwalk
  exact congrArg List.tail hwalk

/-- **A stretch of rows encloses what is in an operation** whose rows are all among them.

**Proof sketch.** The stretch is what is in front, the rows of the operation and what is behind.
Their lines are the opening line, the lines of the regions and the closing line, and each part
opens the operations of its rows (`opens_linesOf`). -/
theorem encloses_linesOf {rows : List Row} {o : OpId} (ho : m.opRows o <:+: rows)
    (hregions : (m.op o).regions ≠ []) : m.Encloses style colors level (rows.filterMap Row.op?)
      (m.linesOf style colors level rows) o
      (m.linesOf style colors level ((m.op o).regions.flatMap m.regionRows)) := by
  obtain ⟨front, back, rfl⟩ := ho
  have hclose : (Row.close o).line? m style colors level (m.numbering ((Row.close o).scope m)) =
      some (m.closingLine style level o) := by
    simp [Row.line?, Row.text?, Row.depth, Row.owner?, closingLine, hregions]
  have hlines : m.linesOf style colors level (m.opRows o) =
      m.openingLine style colors level o ::
        (m.linesOf style colors level ((m.op o).regions.flatMap m.regionRows) ++
          [m.closingLine style level o]) := by
    rw [opRows_eq, ← List.singleton_append, linesOf_append, linesOf_append]
    simp only [linesOf, List.filterMap_cons, List.filterMap_nil, hclose]
    rfl
  refine ⟨front.filterMap Row.op?, back.filterMap Row.op?, m.linesOf style colors level front,
    m.linesOf style colors level back, ?_, ?_, opens_linesOf front, ?_, opens_linesOf back⟩
  · rw [List.filterMap_append, List.filterMap_append, filterMap_opRows]
  · rw [linesOf_append, linesOf_append, hlines]
    simp
  · rw [← filterMap_regions]
    exact opens_linesOf ((m.op o).regions.flatMap m.regionRows)

/-- Lines in front and behind that open nothing make no difference. -/
theorem Opens.surround {lines : List PageLine} {ops : List OpId}
    (h : m.Opens style colors level lines ops) {first last : PageLine}
    (hfirst : first.isOpening = false) (hlast : last.isOpening = false) :
    m.Opens style colors level (first :: (lines ++ [last])) ops := by
  rw [Opens, List.filter_cons_of_neg (by simp [hfirst]), List.filter_append,
    List.filter_cons_of_neg (by simp [hlast]), List.filter_nil, List.append_nil]
  exact h

/-- Lines that open nothing may stand around lines that enclose an operation. -/
theorem Encloses.surround {ops : List OpId} {lines inside : List PageLine} {o : OpId}
    (h : m.Encloses style colors level ops lines o inside) {first last : PageLine}
    (hfirst : first.isOpening = false) (hlast : last.isOpening = false) :
    m.Encloses style colors level ops (first :: (lines ++ [last])) o inside := by
  obtain ⟨before, after, front, back, hops, rfl, hfront, hinside, hback⟩ := h
  refine ⟨before, after, first :: front, back ++ [last], hops, by simp, ?_, hinside, ?_⟩
  · rw [Opens, List.filter_cons_of_neg (by simp [hfirst])]
    exact hfront
  · rw [Opens, List.filter_append, List.filter_cons_of_neg (by simp [hlast]), List.filter_nil,
      List.append_nil]
    exact hback

end Lines

/-! ## The walk -/

/-- What is listed behind an operation in its walk is nested in it. -/
theorem Linked.transGen_of_mem_tail {m : Module} (hm : m.Linked) {o p : OpId}
    (hp : p ∈ (m.walkOp o).tail) : Relation.TransGen m.Up p o := by
  have hne : p ≠ o := by
    rintro rfl
    exact (List.nodup_cons.1 (hm.nodup_walkOp p)).1 hp
  exact (Relation.reflTransGen_iff_eq_or_transGen.1
    (hm.mem_walkOp_iff.1 (List.mem_of_mem_tail hp))).resolve_left (Ne.symm hne)

/-- **A printed module follows the walk.**  The lines that open operations open those of the walk,
in its order, each at a level given by the number of its ancestors; an operation with regions is
closed at the level at which it was opened, behind the lines of what is nested in it, the closing
lines of these operations among them.  The page is at the level at which it was.

**Proof sketch.** The printed lines are those of all rows between the first and the last line of
the module (`emit_eq`), which open nothing.  The operations of the rows are the walk, and the rows
of an operation are a stretch of them, so `encloses_linesOf` applies, to what is nested in it as
well. -/
theorem Linked.emit_walk {m : Module} (hm : m.Linked) {b : BlockId}
    (hbody : (m.region body).blocks = [b]) {ε : Type} (style : Style) (page : Page) :
    ∃ lines, (m.emit style : EStateM ε Page Unit).run page =
        .ok () { page with lines := page.lines ++ lines.toArray } ∧
      m.Opens style page.colors (page.level + 1) lines m.walk ∧
      ∀ o ∈ m.walk, (m.op o).regions ≠ [] → ∃ inside,
        m.Encloses style page.colors (page.level + 1) m.walk lines o inside ∧
        ∀ p ∈ (m.walkOp o).tail, (m.op p).regions ≠ [] → ∃ inner,
          m.Encloses style page.colors (page.level + 1) (m.walkOp o).tail inside p inner := by
  have hfirst : (⟨page.level, "module \x7b"⟩ : PageLine).isOpening = false := by
    simp [PageLine.isOpening]
  have hlast : (⟨page.level, "\x7d" ++ locationText style m.location⟩ : PageLine).isOpening =
      false := by
    simp [PageLine.isOpening, String.toList_append]
  have hrows := hm.filterMap_rows hbody
  refine ⟨_, hm.emit_eq hbody style page, ?_, fun o ho hregions => ?_⟩
  · rw [← hrows]
    exact (opens_linesOf m.rows).surround hfirst hlast
  · have hrows' := hm.opRows_infix_rows hbody (hm.mem_walk_iff.1 ho)
    refine ⟨m.linesOf style page.colors (page.level + 1) ((m.op o).regions.flatMap m.regionRows),
      ?_, fun p hp hregions' =>
        ⟨m.linesOf style page.colors (page.level + 1) ((m.op p).regions.flatMap m.regionRows), ?_⟩⟩
    · rw [← hrows]
      exact (encloses_linesOf hrows' hregions).surround hfirst hlast
    · rw [← filterMap_regions]
      exact encloses_linesOf (hm.opRows_infix_regions (hm.transGen_of_mem_tail hp)) hregions'

end Module

/-- A contract with a function that returns a constant. -/
def constantContract : Builder :=
  [Command.build (.container .contract "C"), .build (.toEnd ⟨1⟩),
    .build (.func "f" ⟨[], [.word]⟩), .build (.toEnd ⟨2⟩), .build (.constant 7 .word),
    .build (.funcReturn [⟨0⟩])].foldl (fun b c => c.run b) (.new (.new .unknown))

/-- Printed at a level of four, the contract follows its walk. -/
theorem constantContract_follows_walk :
    constantContract.ir.Linked ∧ (constantContract.ir.region Module.body).blocks = [⟨0⟩] ∧
      constantContract.ir.walk = [⟨0⟩, ⟨1⟩, ⟨2⟩, ⟨3⟩] ∧
      ∃ lines, (constantContract.ir.emit {} : EStateM Empty Page Unit).run { level := 4 } =
          .ok () { level := 4, lines := #[] ++ lines.toArray } ∧
        constantContract.ir.Opens {} false 5 lines constantContract.ir.walk ∧
        ∀ o ∈ constantContract.ir.walk, (constantContract.ir.op o).regions ≠ [] → ∃ inside,
          constantContract.ir.Encloses {} false 5 constantContract.ir.walk lines o inside ∧
          ∀ p ∈ (constantContract.ir.walkOp o).tail, (constantContract.ir.op p).regions ≠ [] →
            ∃ inner, constantContract.ir.Encloses {} false 5 (constantContract.ir.walkOp o).tail
              inside p inner := by
  have hm : constantContract.ir.Linked :=
    ((Builder.Reachable.new .unknown).foldl (by decide +kernel)).sound.linked
  have hbody : (constantContract.ir.region Module.body).blocks = [⟨0⟩] := by decide +kernel
  exact ⟨hm, hbody, by decide +kernel, hm.emit_walk hbody {} { level := 4 }⟩

end ContractIR
