import ContractIR.Proofs.Print.Mentions
import ContractIR.Proofs.Print.Scopes

/-!
# What a printed module shows

The printer gives numbers to values and blocks as it comes to them.  Said without a state, a printed
module is a list of rows, each of which shows at most one line, and the numbers in a scope are the
places of values and blocks in the list of all that is mentioned in the scope (`Module.numbering`).
The text of a line depends on nothing else, and neither do numbers on what is shown.

## Main definitions

* `ContractIR.Module.numbering` — the numbers of a scope.
* `ContractIR.Print.Row.text?` — the text of the line that a row shows, if it shows one.
* `ContractIR.Module.shownLines`, `printedLines` — the lines that a module shows, and all that is
  printed.

## Main results

* `ContractIR.Module.Linked.shows_printOp` — the lines of an operation.
* `ContractIR.Module.Linked.emit_eq` — what printing leaves on a page.
-/

set_option autoImplicit false

namespace ContractIR

open Print

/-! ## Lines of rows -/

namespace Module

/-- Whether a region is the first one of its operation. -/
def isFirstRegion (m : Module) (r : RegionId) : Bool :=
  decide ((m.region r).parent.bind (fun p => (m.op p).regions.head?) = some r)

/-- Whether a block is the first one of its region. -/
def isFirstBlock (m : Module) (b : BlockId) : Bool :=
  decide ((m.region (m.block b).parent).blocks.head? = some b)

/-- Whether a block shows its header: all do but first blocks without arguments, if headers are not
asked for. -/
def showsHeader (m : Module) (style : Style) (b : BlockId) : Bool :=
  !(m.isFirstBlock b && (m.block b).args.isEmpty && !style.entryHeaders)

end Module

namespace Print.Row

/-- The operation that a row belongs to. -/
def owner? (m : Module) : Row → Option OpId
  | .op id => some id
  | .region r => (m.region r).parent
  | .header b => (m.region (m.block b).parent).parent
  | .close id => some id

/-- How deep a row is nested: the number of operations around its own. -/
def depth (m : Module) (row : Row) : Nat :=
  (row.owner? m).elim 0 fun p => (m.ancestors p).length

/-- The values that a row defines. -/
def defines (m : Module) : Row → List ValueId
  | .op id => (m.op id).results
  | .header b => (m.block b).args
  | _ => []

/-- The values that a row uses. -/
def uses (m : Module) : Row → List ValueId
  | .op id => (m.op id).operands
  | _ => []

/-- The blocks that a row mentions. -/
def blocks (m : Module) : Row → List BlockId
  | .op id => (m.op id).successors
  | .region r => (m.region r).blocks
  | _ => []

/-- The text of the line that a row shows, if it shows one.  Every operation has an opening line;
one with regions has a closing line, too, and a line between two regions. -/
def text? (m : Module) (style : Style) (colors : Bool) (n : Numbering) : Row → Option String
  | .op id => some (n.head colors m id ++
      if (m.op id).regions.isEmpty then trailer style m id else " (\x7b")
  | .region r => if m.isFirstRegion r then none else some "\x7d, \x7b"
  | .header b => if m.showsHeader style b then some (n.header m b) else none
  | .close id => if (m.op id).regions.isEmpty then none else some ("\x7d)" ++ trailer style m id)

/-- The line that a row shows, if it shows one, where operations of the body are at a level. -/
def line? (m : Module) (style : Style) (colors : Bool) (level : Nat) (n : Numbering) (row : Row) :
    Option PageLine := (row.text? m style colors n).map fun text => ⟨level + row.depth m, text⟩

end Print.Row

namespace Module

/-- The values that rows mention in a scope, in order: those that a row defines before those that it
uses. -/
def valuesIn (m : Module) (scope : Option OpId) (rows : List Row) : List ValueId :=
  (rows.filter fun row => decide (row.scope m = scope)).flatMap fun row =>
    row.defines m ++ row.uses m

/-- The blocks that rows mention in a scope, in order. -/
def blocksIn (m : Module) (scope : Option OpId) (rows : List Row) : List BlockId :=
  (rows.filter fun row => decide (row.scope m = scope)).flatMap (Row.blocks m)

/-- **The numbers of a scope**: the places of what is mentioned in it, at the first mention. -/
def numbering (m : Module) (scope : Option OpId) : Numbering :=
  ({} : Numbering).after (m.valuesIn scope m.rows) (m.blocksIn scope m.rows)

/-- The lines that rows show, with the operations of the body at a level. -/
def linesOf (m : Module) (style : Style) (colors : Bool) (level : Nat) (rows : List Row) :
    List PageLine :=
  rows.filterMap fun row => row.line? m style colors level (m.numbering (row.scope m))

/-- The lines that a module shows. -/
def shownLines (m : Module) (style : Style) (colors : Bool) (level : Nat) : List PageLine :=
  m.linesOf style colors level m.rows

/-- The lines of a printed module at a level: what it shows between an opening and a closing
line. -/
def printedLines (m : Module) (style : Style) (colors : Bool) (level : Nat) : List PageLine :=
  ⟨level, "module \x7b"⟩ :: (m.shownLines style colors (level + 1) ++
    [⟨level, "\x7d" ++ locationText style m.location⟩])

/-! ## Stretches of rows -/

section Stretches

variable {m : Module} {scope : Option OpId}

/-- No rows mention no values. -/
@[simp] theorem valuesIn_nil : m.valuesIn scope [] = [] := rfl

/-- No rows mention no blocks. -/
@[simp] theorem blocksIn_nil : m.blocksIn scope [] = [] := rfl

/-- Rows mention the values of their parts, in order. -/
theorem valuesIn_append (rows rows' : List Row) :
    m.valuesIn scope (rows ++ rows') = m.valuesIn scope rows ++ m.valuesIn scope rows' := by
  simp [valuesIn]

/-- Rows mention the blocks of their parts, in order. -/
theorem blocksIn_append (rows rows' : List Row) :
    m.blocksIn scope (rows ++ rows') = m.blocksIn scope rows ++ m.blocksIn scope rows' := by
  simp [blocksIn]

/-- Rows that were made for the members of a list mention values member by member. -/
theorem valuesIn_flatMap {α : Type} (xs : List α) (f : α → List Row) :
    m.valuesIn scope (xs.flatMap f) = xs.flatMap fun x => m.valuesIn scope (f x) := by
  simp [valuesIn, List.filter_flatMap, List.flatMap_assoc]

/-- Rows that were made for the members of a list mention blocks member by member. -/
theorem blocksIn_flatMap {α : Type} (xs : List α) (f : α → List Row) :
    m.blocksIn scope (xs.flatMap f) = xs.flatMap fun x => m.blocksIn scope (f x) := by
  simp [blocksIn, List.filter_flatMap, List.flatMap_assoc]

/-- A row of the scope mentions its values before the rows behind it. -/
theorem valuesIn_cons_of_scope {row : Row} (h : row.scope m = scope) (rows : List Row) :
    m.valuesIn scope (row :: rows) = (row.defines m ++ row.uses m) ++ m.valuesIn scope rows := by
  simp [valuesIn, h]

/-- A row of the scope mentions its blocks before the rows behind it. -/
theorem blocksIn_cons_of_scope {row : Row} (h : row.scope m = scope) (rows : List Row) :
    m.blocksIn scope (row :: rows) = row.blocks m ++ m.blocksIn scope rows := by
  simp [blocksIn, h]

/-- Rows of other scopes mention nothing in a scope. -/
theorem valuesIn_eq_nil {rows : List Row} (h : ∀ row ∈ rows, row.scope m ≠ scope) :
    m.valuesIn scope rows = [] ∧ m.blocksIn scope rows = [] := by
  have hnone : (rows.filter fun row => decide (row.scope m = scope)) = [] :=
    List.filter_eq_nil_iff.2 fun row hrow heq => h row hrow (of_decide_eq_true heq)
  simp [valuesIn, blocksIn, hnone]

end Stretches

/-! ## The printer -/

section Printer

variable (m : Module) (style : Style) (colors : Bool) (level : Nat)
  (numbers : Option OpId → Numbering)

/-- The lines of rows, numbered by `n` in one scope and by `numbers` in all others. -/
def linesIn (scope : Option OpId) (n : Numbering) (rows : List Row) : List PageLine :=
  rows.filterMap fun row => row.line? m style colors level
    (if row.scope m = scope then n else numbers (row.scope m))

/-- The printer of an operation, at the level where it stands. -/
def printOp (o : OpId) : StateM Numbering (List PageLine) :=
  opLines colors style m
    (regionLines colors style m m.depthBound (level + (m.ancestors o).length))
    (level + (m.ancestors o).length) o

variable {m style colors level numbers}

/-- Rows are printed part by part. -/
theorem linesIn_append {scope : Option OpId} {n : Numbering} (rows rows' : List Row) :
    m.linesIn style colors level numbers scope n (rows ++ rows') =
      m.linesIn style colors level numbers scope n rows ++
        m.linesIn style colors level numbers scope n rows' := List.filterMap_append

/-- Rows that were made for the members of a list are printed member by member. -/
theorem linesIn_flatMap {α : Type} {scope : Option OpId} {n : Numbering} (xs : List α)
    (f : α → List Row) : m.linesIn style colors level numbers scope n (xs.flatMap f) =
      xs.flatMap fun x => m.linesIn style colors level numbers scope n (f x) :=
  List.filterMap_flatMap

/-- Lines of rows in other scopes do not depend on the numbers of a scope. -/
theorem linesIn_of_ne {scope : Option OpId} {rows : List Row}
    (h : ∀ row ∈ rows, row.scope m ≠ scope) (n : Numbering) :
    m.linesIn style colors level numbers scope n rows =
      rows.filterMap fun row => row.line? m style colors level (numbers (row.scope m)) :=
  List.filterMap_congr fun row hrow => by rw [if_neg (h row hrow)]

/-- If a scope has the right numbers, its lines are numbered like all others. -/
theorem linesIn_self (scope : Option OpId) (rows : List Row) :
    m.linesIn style colors level numbers scope (numbers scope) rows =
      rows.filterMap fun row => row.line? m style colors level (numbers (row.scope m)) := by
  refine List.filterMap_congr fun row _ => ?_
  split
  · rename_i hscope
    rw [hscope]
  · rfl

/-- A list of regions has a dividing line in front of every region but the first one.

**Proof sketch.** The regions of an operation are different ones, so only the head of the list is
the first region, and all others have a dividing line in front. -/
theorem regionsLines_map (hm : m.Linked) (p : OpId) (lineLevel : Nat)
    (lines : RegionId → List PageLine) : regionsLines lineLevel ((m.op p).regions.map lines) =
      (m.op p).regions.flatMap fun r =>
        (if m.isFirstRegion r then [] else [⟨lineLevel, "\x7d, \x7b"⟩]) ++ lines r := by
  have hfirst : ∀ r ∈ (m.op p).regions,
      m.isFirstRegion r = decide ((m.op p).regions.head? = some r) := by
    intro r hr
    rw [isFirstRegion, (hm.region_parent r p).2 hr]
    rfl
  have hnodup := hm.regions_nodup p
  cases hregions : (m.op p).regions with
  | nil => rfl
  | cons r rs =>
    rw [hregions] at hfirst hnodup
    have hr : m.isFirstRegion r = true := by simp [hfirst r List.mem_cons_self]
    have hrs : ∀ s ∈ rs, m.isFirstRegion s = false := by
      intro s hs
      have hne : r ≠ s := fun heq => (List.nodup_cons.1 hnodup).1 (heq ▸ hs)
      simp [hfirst s (.tail _ hs), hne]
    rw [List.map_cons, regionsLines, List.flatMap_cons, hr, List.flatMap_map]
    refine congrArg (lines r ++ ·) (List.flatMap_congr fun s hs => ?_)
    rw [hrs s hs]
    rfl

/-- Steps that agree on the members of a list agree on the list. -/
theorem mapM_congr {α β : Type} {f g : α → StateM Numbering β} {xs : List α}
    (h : ∀ x ∈ xs, f x = g x) : xs.mapM f = xs.mapM g := by
  induction xs with
  | nil => rfl
  | cons x xs ih =>
    obtain ⟨hx, hxs⟩ := List.forall_mem_cons.1 h
    rw [List.mapM_cons, List.mapM_cons, hx, ih hxs]

/-- The printer of a region depends on the depth only as far as the printers of what is inside
do.

**Proof sketch.** The printer of a region goes over its blocks and their operations, and uses the
depth only for the regions of those operations, where the hypothesis speaks. -/
theorem regionLines_succ_congr {k l : Nat} {r : RegionId}
    (h : ∀ o, m.StandsIn o r → ∀ s ∈ (m.op o).regions,
      (fun inner => regionLines colors style m k inner s) =
        fun inner => regionLines colors style m l inner s) :
    (fun inner => regionLines colors style m (k + 1) inner r) =
      fun inner => regionLines colors style m (l + 1) inner r := by
  funext inner
  have hblocks : ((m.region r).blocks.mapIdx fun i b => (i, b)).mapM (fun p =>
      blockLines style m (opLines colors style m (regionLines colors style m k (inner + 1))
        (inner + 1)) inner (p.1 == 0) p.2) =
      ((m.region r).blocks.mapIdx fun i b => (i, b)).mapM fun p =>
        blockLines style m (opLines colors style m (regionLines colors style m l (inner + 1))
          (inner + 1)) inner (p.1 == 0) p.2 := by
    refine mapM_congr fun p hp => ?_
    obtain ⟨i, hi, rfl⟩ := List.mem_mapIdx.1 hp
    have hops : (m.block (m.region r).blocks[i]).ops.mapM (opLines colors style m
        (regionLines colors style m k (inner + 1)) (inner + 1)) =
        (m.block (m.region r).blocks[i]).ops.mapM (opLines colors style m
          (regionLines colors style m l (inner + 1)) (inner + 1)) := by
      refine mapM_congr fun o ho => ?_
      have hregions : (m.op o).regions.mapM (regionLines colors style m k (inner + 1)) =
          (m.op o).regions.mapM (regionLines colors style m l (inner + 1)) :=
        mapM_congr fun s hs => congrFun (h o ⟨_, List.getElem_mem hi, ho⟩ s hs) (inner + 1)
      simp only [opLines, hregions]
    simp only [blockLines, hops]
  simp only [regionLines, hblocks]

/-- A step for every block of a region that asks whether the block is the first one.

**Proof sketch.** The blocks of a region are different ones, so a block has index zero exactly if
it is the first. -/
theorem Linked.mapM_mapIdx (hm : m.Linked) (r : RegionId) {α : Type}
    (step : Bool → BlockId → StateM Numbering α) :
    ((m.region r).blocks.mapIdx fun i b => (i, b)).mapM (fun q => step (q.1 == 0) q.2) =
      (m.region r).blocks.mapM fun b => step (m.isFirstBlock b) b := by
  have hblocks : ((m.region r).blocks.mapIdx fun i b => (i, b)).map Prod.snd =
      (m.region r).blocks := by
    refine List.ext_getElem? fun i => ?_
    simp only [List.getElem?_map, List.getElem?_mapIdx, Option.map_map]
    exact Option.map_id'
  have hfirst : ∀ q ∈ (m.region r).blocks.mapIdx fun i b => (i, b),
      step (q.1 == 0) q.2 = step (m.isFirstBlock q.2) q.2 := by
    intro q hq
    obtain ⟨i, hi, rfl⟩ := List.mem_mapIdx.1 hq
    have hmem := List.getElem_mem hi
    have hhead : (i == 0) = m.isFirstBlock (m.region r).blocks[i] := by
      rw [isFirstBlock, (hm.block_parent _ r (hm.blocks_lt r _ hmem)).2 hmem,
        List.head?_eq_getElem?, ← List.getElem?_eq_getElem hi, Bool.eq_iff_iff, beq_iff_eq,
        decide_eq_true_iff, eq_comm (a := (m.region r).blocks[0]?),
        List.getElem?_inj hi (hm.blocks_nodup r)]
    rw [hhead]
  calc ((m.region r).blocks.mapIdx fun i b => (i, b)).mapM (fun q => step (q.1 == 0) q.2)
      = ((m.region r).blocks.mapIdx fun i b => (i, b)).mapM
          (fun q => step (m.isFirstBlock q.2) q.2) := mapM_congr hfirst
    _ = (((m.region r).blocks.mapIdx fun i b => (i, b)).map Prod.snd).mapM
          (fun b => step (m.isFirstBlock b) b) := by rw [List.mapM_map]; rfl
    _ = (m.region r).blocks.mapM fun b => step (m.isFirstBlock b) b := by rw [hblocks]

/-- **The printer of a region**, whose blocks are numbered before the first one is printed. -/
theorem Linked.regionLines_eq (hm : m.Linked) {p : OpId} {r : RegionId}
    (hr : r ∈ (m.op p).regions) (inner : Nat) :
    regionLines colors style m m.depthBound inner r = do
      let _ ← (m.region r).blocks.mapM Numbering.block
      let lines ← (m.region r).blocks.mapM fun b =>
        blockLines style m (opLines colors style m
          (regionLines colors style m m.depthBound (inner + 1)) (inner + 1)) inner
          (m.isFirstBlock b) b
      return lines.flatten := by
  have hdepth := hm.eq_of_depth
    (F := fun k s => fun inner => regionLines colors style m k inner s) regionLines_succ_congr hr
    (k := m.depthBound) (l := m.depthBound + 1) (Linked.size_le_of_le le_rfl)
    (Linked.size_le_of_le (Nat.le_succ _))
  have hblocks := hm.mapM_mapIdx r (blockLines style m (opLines colors style m
    (regionLines colors style m m.depthBound (inner + 1)) (inner + 1)) inner)
  refine (congrFun hdepth inner).trans ?_
  simp only [regionLines, hblocks]

/-- A printing step shows rows in a scope: it mentions what they mention there, and gives their
lines. -/
abbrev ShowsRows (m : Module) (style : Style) (colors : Bool) (level : Nat)
    (numbers : Option OpId → Numbering) (scope : Option OpId) (known : List BlockId)
    (x : StateM Numbering (List PageLine)) (rows : List Row) : Prop :=
  Prints known x (m.valuesIn scope rows) (m.blocksIn scope rows)
    fun n => m.linesIn style colors level numbers scope n rows

/-- The header of a block is shown, or has nothing to mention.

**Proof sketch.** The header is hidden or shown.  A shown one is the line of its row, at the
depth of the operation around it; a hidden one belongs to a block without arguments, so no value
is numbered for it. -/
theorem Linked.shows_headerLines (hm : m.Linked) {p : OpId} {r : RegionId} {b : BlockId}
    (hr : r ∈ (m.op p).regions) (hb : b ∈ (m.region r).blocks) :
    m.ShowsRows style colors level numbers (m.innerScope p) [b]
      (headerLines style m (level + (m.ancestors p).length) (m.isFirstBlock b) b) [.header b] := by
  have hscope := hm.scope_header hr hb
  have hdepth : (Row.header b).depth m = (m.ancestors p).length := by
    rw [Row.depth, Row.owner?, hm.owner_block hr hb]
    rfl
  rw [ShowsRows, valuesIn_cons_of_scope hscope, valuesIn_nil, blocksIn_cons_of_scope hscope,
    blocksIn_nil]
  simp only [linesIn, List.filterMap_cons, List.filterMap_nil, hscope, if_true, Row.line?,
    Row.text?, hdepth, Row.defines, Row.uses, Row.blocks, List.append_nil, headerLines]
  cases hhidden : (m.isFirstBlock b && (m.block b).args.isEmpty && !style.entryHeaders) with
  | false =>
    have hshown : m.showsHeader style b = true := by rw [showsHeader, hhidden]; rfl
    simp only [hshown, if_true, Bool.false_eq_true, if_false, Option.map_some]
    exact (prints_blockHeader m b).map fun text =>
      [(⟨level + (m.ancestors p).length, text⟩ : PageLine)]
  | true =>
    have hshown : m.showsHeader style b = false := by rw [showsHeader, hhidden]; rfl
    have hargs : (m.block b).args = [] := by
      simp only [Bool.and_eq_true] at hhidden
      exact List.isEmpty_iff.1 hhidden.1.2
    simp only [hshown, if_true, Bool.false_eq_true, if_false, Option.map_none, hargs]
    exact Prints.pure [b] []

/-- The lines of the rows of several members of a list. -/
theorem flatten_linesIn {α : Type} {scope : Option OpId} {n : Numbering} (xs : List α)
    (rows : α → List Row) :
    (xs.map fun x => m.linesIn style colors level numbers scope n (rows x)).flatten =
      m.linesIn style colors level numbers scope n (xs.flatMap rows) := by
  rw [linesIn_flatMap, List.flatMap_def]

/-- Steps that show the rows of the members of a list. -/
theorem prints_mapM {α : Type} {scope : Option OpId} {known : List BlockId}
    {step : α → StateM Numbering (List PageLine)} {rows : α → List Row} {xs : List α}
    (h : ∀ x ∈ xs, m.ShowsRows style colors level numbers scope known (step x) (rows x)) :
    Prints known (xs.mapM step) (m.valuesIn scope (xs.flatMap rows))
      (m.blocksIn scope (xs.flatMap rows))
      fun n => xs.map fun x => m.linesIn style colors level numbers scope n (rows x) := by
  rw [valuesIn_flatMap, blocksIn_flatMap]
  exact Prints.mapM h

/-- The lines of a block are its header, if it is shown, and those of its operations.

**Proof sketch.** The header by `shows_headerLines`, the operations by hypothesis, one level
deeper than the operation around them; printing one after the other joins the rows (`Prints.bind`,
`prints_mapM`). -/
theorem Linked.shows_blockLines (hm : m.Linked) {p : OpId} {r : RegionId} {b : BlockId}
    (hr : r ∈ (m.op p).regions) (hb : b ∈ (m.region r).blocks)
    (hops : ∀ o ∈ (m.block b).ops, m.ShowsRows style colors level numbers (m.innerScope p) []
      (m.printOp style colors level o) (m.opRows o)) :
    m.ShowsRows style colors level numbers (m.innerScope p) (m.region r).blocks
      (blockLines style m (opLines colors style m (regionLines colors style m m.depthBound
        (level + (m.ancestors p).length + 1)) (level + (m.ancestors p).length + 1))
        (level + (m.ancestors p).length) (m.isFirstBlock b) b) (m.blockRows b) := by
  have hheader : m.ShowsRows style colors level numbers (m.innerScope p) (m.region r).blocks
      (headerLines style m (level + (m.ancestors p).length) (m.isFirstBlock b) b) [.header b] :=
    (hm.shows_headerLines hr hb).mono (List.cons_subset.2 ⟨hb, List.nil_subset _⟩)
  have hmembers : ∀ o ∈ (m.block b).ops, m.ShowsRows style colors level numbers (m.innerScope p) []
      (opLines colors style m (regionLines colors style m m.depthBound
        (level + (m.ancestors p).length + 1)) (level + (m.ancestors p).length + 1) o)
      (m.opRows o) := by
    intro o ho
    have hlength : (m.ancestors o).length = (m.ancestors p).length + 1 := by
      rw [hm.ancestors_of_up (hm.up_of_standsIn ⟨b, hb, ho⟩ hr), List.length_cons]
    have hop := hops o ho
    rwa [printOp, hlength, ← Nat.add_assoc] at hop
  have hall := hheader.bind fun header =>
    ((prints_mapM hmembers).mono (List.nil_subset _)).map fun ops => header ++ ops.flatten
  have hrows : m.blockRows b = [.header b] ++ (m.block b).ops.flatMap m.opRows := rfl
  rw [ShowsRows, hrows, valuesIn_append, blocksIn_append]
  simp only [flatten_linesIn, ← linesIn_append] at hall
  exact hall

/-- The lines of a region are those of its blocks. -/
theorem Linked.prints_regionLines (hm : m.Linked) {p : OpId} {r : RegionId}
    (hr : r ∈ (m.op p).regions) (hops : ∀ o, m.Up o p →
      m.ShowsRows style colors level numbers (m.innerScope p) [] (m.printOp style colors level o)
        (m.opRows o)) :
    Prints [] (regionLines colors style m m.depthBound (level + (m.ancestors p).length) r)
      (m.valuesIn (m.innerScope p) (m.regionRows r)) (m.blocksIn (m.innerScope p) (m.regionRows r))
      fun n => m.linesIn style colors level numbers (m.innerScope p) n
        ((m.region r).blocks.flatMap m.blockRows) := by
  have hscope := hm.scope_region hr
  have hlines := prints_mapM fun b hb => hm.shows_blockLines hr hb fun o ho =>
    hops o (hm.up_of_standsIn ⟨b, hb, ho⟩ hr)
  have hnumbers := Prints.mapM_blocks prints_block (m.region r).blocks
  have hall := hnumbers.bind fun _ => hlines.map List.flatten
  rw [hm.regionLines_eq hr, hm.regionRows_eq hr, valuesIn_cons_of_scope hscope,
    blocksIn_cons_of_scope hscope]
  simp only [flatten_linesIn] at hall
  exact hall

/-- The lines of a region are those of its blocks, behind a dividing line if there is a region
before. -/
theorem Linked.linesIn_regionRows (hm : m.Linked) {p : OpId} {r : RegionId}
    (hr : r ∈ (m.op p).regions) (scope : Option OpId) (n : Numbering) :
    m.linesIn style colors level numbers scope n (m.regionRows r) =
      (if m.isFirstRegion r then [] else [⟨level + (m.ancestors p).length, "\x7d, \x7b"⟩]) ++
        m.linesIn style colors level numbers scope n ((m.region r).blocks.flatMap m.blockRows) := by
  have hdepth : (Row.region r).depth m = (m.ancestors p).length := by
    rw [Row.depth, Row.owner?, (hm.region_parent r p).2 hr]
    rfl
  rw [hm.regionRows_eq hr, linesIn, List.filterMap_cons]
  cases hfirst : m.isFirstRegion r <;> simp [Row.line?, Row.text?, hfirst, hdepth, linesIn]

/-- The lines of the regions of an operation. -/
theorem Linked.regionsLines_eq (hm : m.Linked) (p : OpId) (scope : Option OpId) (n : Numbering) :
    regionsLines (level + (m.ancestors p).length) ((m.op p).regions.map fun r =>
        m.linesIn style colors level numbers scope n ((m.region r).blocks.flatMap m.blockRows)) =
      m.linesIn style colors level numbers scope n ((m.op p).regions.flatMap m.regionRows) := by
  rw [regionsLines_map hm, linesIn_flatMap]
  exact List.flatMap_congr fun r hr => (hm.linesIn_regionRows hr scope n).symm

/-- Every isolated operation inside an operation is numbered by what its regions mention. -/
def NumbersInside (m : Module) (numbers : Option OpId → Numbering) (o : OpId) : Prop :=
  ∀ p, (m.kind p).isIsolated = true → m.Inside p o → numbers (some p) = ({} : Numbering).after
    (m.valuesIn (some p) ((m.op p).regions.flatMap m.regionRows))
    (m.blocksIn (some p) ((m.op p).regions.flatMap m.regionRows))

/-- The printer of the regions of an operation, in the numbering of the operation or in their
own.

**Proof sketch.** By whether the operation is isolated.  If not, its regions are printed in the
numbering around it.  If it is, they are printed in a new one, which ends as that of the
operation, and nothing inside is numbered outside (`scope_ne_of_mem`). -/
theorem Linked.prints_inScope (hm : m.Linked) {o : OpId} (hnumbers : m.NumbersInside numbers o)
    (hops : ∀ c, m.Up c o → m.ShowsRows style colors level numbers (m.innerScope o) []
      (m.printOp style colors level c) (m.opRows c)) :
    Prints [] (inScope (m.kind o).isIsolated ((m.op o).regions.mapM
        (regionLines colors style m m.depthBound (level + (m.ancestors o).length))))
      (m.valuesIn (m.scopeOf o) ((m.op o).regions.flatMap m.regionRows))
      (m.blocksIn (m.scopeOf o) ((m.op o).regions.flatMap m.regionRows))
      fun n => (m.op o).regions.map fun r => m.linesIn style colors level numbers (m.scopeOf o) n
        ((m.region r).blocks.flatMap m.blockRows) := by
  have hregions : Prints [] ((m.op o).regions.mapM
        (regionLines colors style m m.depthBound (level + (m.ancestors o).length)))
      (m.valuesIn (m.innerScope o) ((m.op o).regions.flatMap m.regionRows))
      (m.blocksIn (m.innerScope o) ((m.op o).regions.flatMap m.regionRows))
      fun n => (m.op o).regions.map fun r => m.linesIn style colors level numbers (m.innerScope o) n
        ((m.region r).blocks.flatMap m.blockRows) := by
    rw [valuesIn_flatMap, blocksIn_flatMap]
    exact Prints.mapM fun r hr => hm.prints_regionLines hr hops
  cases hkind : (m.kind o).isIsolated with
  | false =>
    have hscope : m.innerScope o = m.scopeOf o := by simp [innerScope, hkind]
    rw [hscope] at hregions
    exact hregions
  | true =>
    have hscope : m.innerScope o = some o := by simp [innerScope, hkind]
    -- no row inside is numbered outside
    have hne : ∀ row ∈ (m.op o).regions.flatMap m.regionRows, row.scope m ≠ m.scopeOf o :=
      fun row hrow => hm.scope_ne_of_mem hkind hrow
    obtain ⟨hvalues, hblocks⟩ := valuesIn_eq_nil hne
    have hlines : ∀ n, ∀ r ∈ (m.op o).regions,
        m.linesIn style colors level numbers (m.scopeOf o) n
          ((m.region r).blocks.flatMap m.blockRows) =
        m.linesIn style colors level numbers (some o) (numbers (some o))
          ((m.region r).blocks.flatMap m.blockRows) := by
      intro n r hr
      rw [linesIn_self]
      refine linesIn_of_ne (fun row hrow => hne row (List.mem_flatMap.2 ⟨r, hr, ?_⟩)) n
      rw [hm.regionRows_eq hr]
      exact .tail _ hrow
    rw [hscope] at hregions
    rw [hvalues, hblocks]
    simp only [List.map_congr_left (hlines _)]
    exact hregions.inScope (hnumbers o hkind .refl ▸ Numbering.Le.refl _)

/-- What the rows of an operation mention: what precedes its regions, and what the regions
mention. -/
theorem valuesIn_opRows (m : Module) (o : OpId) :
    m.valuesIn (m.scopeOf o) (m.opRows o) = (m.op o).results ++ (m.op o).operands ++
        m.valuesIn (m.scopeOf o) ((m.op o).regions.flatMap m.regionRows) ∧
      m.blocksIn (m.scopeOf o) (m.opRows o) = (m.op o).successors ++
        m.blocksIn (m.scopeOf o) ((m.op o).regions.flatMap m.regionRows) := by
  have hclose : m.valuesIn (m.scopeOf o) [.close o] = [] ∧
      m.blocksIn (m.scopeOf o) [.close o] = [] := by
    simp [valuesIn, blocksIn, Row.scope, Row.defines, Row.uses, Row.blocks]
  have hscope : (Row.op o).scope m = m.scopeOf o := rfl
  rw [opRows_eq, valuesIn_cons_of_scope hscope, blocksIn_cons_of_scope hscope, valuesIn_append,
    blocksIn_append, hclose.1, hclose.2, List.append_nil, List.append_nil]
  exact ⟨rfl, rfl⟩

/-- The lines of an operation: an opening line, those of its regions, and a closing line if there
are regions. -/
theorem linesIn_opRows (o : OpId) (n : Numbering) :
    m.linesIn style colors level numbers (m.scopeOf o) n (m.opRows o) =
      ⟨level + (m.ancestors o).length, n.head colors m o ++
          if (m.op o).regions.isEmpty then trailer style m o else " (\x7b"⟩ ::
        (m.linesIn style colors level numbers (m.scopeOf o) n
            ((m.op o).regions.flatMap m.regionRows) ++
          if (m.op o).regions.isEmpty then []
          else [⟨level + (m.ancestors o).length, "\x7d)" ++ trailer style m o⟩]) := by
  have hclose : m.linesIn style colors level numbers (m.scopeOf o) n [.close o] =
      if (m.op o).regions.isEmpty then []
      else [⟨level + (m.ancestors o).length, "\x7d)" ++ trailer style m o⟩] := by
    rw [linesIn, List.filterMap_cons, Row.line?, Row.text?, Row.depth, Row.owner?]
    cases (m.op o).regions.isEmpty <;> rfl
  rw [opRows_eq, linesIn, List.filterMap_cons_some (b := ⟨level + (m.ancestors o).length,
    n.head colors m o ++ if (m.op o).regions.isEmpty then trailer style m o else " (\x7b"⟩),
    List.filterMap_append, ← hclose]
  · rfl
  · simp [Row.line?, Row.text?, Row.depth, Row.owner?, Row.scope]

/-- **The lines of an operation.**

**Proof sketch.** By induction from the inside out.  What precedes the regions mentions results,
operands and successors (`prints_headText`).  The regions are printed in the same numbering, or, if
the operation is isolated, in one that starts anew; then none of their rows is in the scope around
the operation (`scope_ne_of_mem`), so that outside nothing is mentioned. -/
theorem Linked.shows_printOp (hm : m.Linked) (o : OpId) (hnumbers : m.NumbersInside numbers o) :
    m.ShowsRows style colors level numbers (m.scopeOf o) [] (m.printOp style colors level o)
      (m.opRows o) := by
  induction o using hm.inside_induction with
  | hP o ih =>
    have hops : ∀ c, m.Up c o → m.ShowsRows style colors level numbers (m.innerScope o) []
        (m.printOp style colors level c) (m.opRows c) := by
      intro c hup
      rw [← hm.scopeOf_of_up hup]
      exact ih c hup fun p hkind hp => hnumbers p hkind (hp.tail hup)
    have hinner := hm.prints_inScope hnumbers hops
    have hhead := prints_headText colors m o
    obtain ⟨hvalues, hblocks⟩ := valuesIn_opRows m o
    rw [ShowsRows, hvalues, hblocks]
    simp only [linesIn_opRows]
    rw [printOp]
    unfold opLines
    cases hempty : (m.op o).regions.isEmpty with
    | true =>
      rw [List.isEmpty_iff.1 hempty]
      simpa [linesIn] using hhead.map fun head =>
        [(⟨level + (m.ancestors o).length, head ++ trailer style m o⟩ : PageLine)]
    | false =>
      have hall := hhead.bind fun head => (hinner.mono (List.nil_subset _)).map fun inner =>
        (⟨level + (m.ancestors o).length, head ++ " (\x7b"⟩ : PageLine) ::
          regionsLines (level + (m.ancestors o).length) inner ++
            [⟨level + (m.ancestors o).length, "\x7d)" ++ trailer style m o⟩]
      simp only [hm.regionsLines_eq, List.cons_append] at hall
      simp only [hempty, Bool.false_eq_true, if_false]
      exact hall

end Printer

/-! ## The module -/

section Emit

variable {m : Module} {b : BlockId}

/-- A scope has the numbers of what is mentioned inside its operation, if that belongs to the
tree. -/
theorem Linked.numbersInside (hm : m.Linked) (hbody : (m.region body).blocks = [b]) {o : OpId}
    (ho : m.isAttached o = true) : m.NumbersInside m.numbering o := by
  intro p _ hp
  have hattached : m.isAttached p = true := by
    obtain ⟨q, hq, hoq⟩ := hm.isAttached_iff.1 ho
    exact hm.isAttached_iff.2 ⟨q, hq, hp.trans hoq⟩
  have hrows := hm.scopeRows_eq hbody hattached
  rw [scopeRows] at hrows
  rw [numbering, valuesIn, blocksIn, hrows]
  rfl

/-- The operations of the body have nothing around them. -/
theorem Linked.parentOp?_of_mem_topLevel (hm : m.Linked) (hbody : (m.region body).blocks = [b])
    {o : OpId} (ho : o ∈ m.topLevel) : m.parentOp? o = none := by
  rw [hm.parentOp?_of_standsIn ((standsIn_body_iff hbody).2 ho), hm.body_parent]

/-- **The lines of the operations of the body.**

**Proof sketch.** Each operation of the body shows its rows (`shows_printOp`) with the numbering
of the module, no operation being around it; the lines of all of them are then those of all rows. -/
theorem Linked.topLevelLines_eq (hm : m.Linked) (hbody : (m.region body).blocks = [b])
    (style : Style) (colors : Bool) (level : Nat) :
    topLevelLines colors style m level = m.shownLines style colors level := by
  have hops : ∀ o ∈ m.topLevel, m.ShowsRows style colors level m.numbering none []
      (opLines colors style m (regionLines colors style m m.depthBound level) level o)
      (m.opRows o) := by
    intro o ho
    have hparent := hm.parentOp?_of_mem_topLevel hbody ho
    have hancestors : m.ancestors o = [] := by rw [hm.ancestors_eq, hparent]
    have hattached := hm.isAttached_iff.2 ⟨o, (standsIn_body_iff hbody).2 ho, .refl⟩
    have hshows : m.ShowsRows style colors level m.numbering (m.scopeOf o) []
        (m.printOp style colors level o) (m.opRows o) :=
      hm.shows_printOp o (hm.numbersInside hbody hattached)
    rwa [hm.scopeOf_eq_none hparent, printOp, hancestors] at hshows
  have hall := (prints_mapM hops).outcome {} (m.numbering none) (List.nil_subset _)
    (Numbering.Le.refl _)
  calc topLevelLines colors style m level
      = (m.topLevel.map fun o =>
          m.linesIn style colors level m.numbering none (m.numbering none) (m.opRows o)).flatten :=
        congrArg List.flatten hall
    _ = m.linesIn style colors level m.numbering none (m.numbering none) m.rows :=
        flatten_linesIn _ _
    _ = m.shownLines style colors level := linesIn_self _ _

/-- **What printing leaves on a page**: the lines of the module, at the level of the page.  The page
is at the level at which it was. -/
theorem Linked.emit_eq (hm : m.Linked) (hbody : (m.region body).blocks = [b]) {ε : Type}
    (style : Style) (page : Page) : (m.emit style : EStateM ε Page Unit).run page = .ok ()
      { page with
        lines := page.lines ++ (m.printedLines style page.colors page.level).toArray } := by
  rw [printedLines, ← hm.topLevelLines_eq hbody]
  refine congrArg (EStateM.Result.ok ()) (Page.mk.injEq .. |>.mpr ⟨rfl, rfl, rfl, ?_⟩)
  simp [Page.append, Page.indent, Page.dedent, Page.line]

end Emit

end Module

end ContractIR
