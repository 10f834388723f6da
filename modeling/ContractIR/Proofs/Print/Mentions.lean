import ContractIR.Print.Printer
import ContractIR.Proofs.Print.Reading
import Mathlib.Data.List.Infix
import Mathlib.Data.List.Nodup

/-!
# What printing mentions

A numbering grows while a module is printed: what is mentioned for the first time gets the next
number, and keeps it.  So the text that is printed is the same as if all numbers had been known from
the start.  `Print.Prints` says this of a printing step: which values and blocks it mentions, in
order, and which text it gives, as a function of a numbering that knows them all.

## Main definitions

* `ContractIR.Print.noted` — a list of things seen, after some more are seen.
* `ContractIR.Print.Numbering.after` — a numbering, after some values and blocks were mentioned.
* `ContractIR.Print.Numbering.valueLabel`, `blockLabel`, `head`, `header` — printed forms in a
  numbering that is complete.
* `ContractIR.Print.Prints` — what a printing step mentions, and what it gives.

## Main results

* `ContractIR.Print.Prints.bind`, `mapM` — steps one after the other.
* `ContractIR.Print.prints_headText`, `prints_blockHeader` — operations and block headers.
-/

set_option autoImplicit false

namespace ContractIR.Print

/-! ## Things seen -/

section Noted

variable {α : Type} [DecidableEq α]

/-- A list of things seen, after one more is seen. -/
def note (seen : List α) (a : α) : List α := if a ∈ seen then seen else seen ++ [a]

/-- A list of things seen, after some more are seen. -/
def noted (seen as : List α) : List α := as.foldl note seen

/-- Noting nothing changes nothing. -/
@[simp] theorem noted_nil (seen : List α) : noted seen [] = seen := rfl

/-- Members are noted one after the other. -/
@[simp] theorem noted_cons (seen : List α) (a : α) (as : List α) :
    noted seen (a :: as) = noted (note seen a) as := rfl

/-- Lists are noted one after the other. -/
theorem noted_append (seen as bs : List α) : noted seen (as ++ bs) = noted (noted seen as) bs :=
  List.foldl_append

/-- What was seen is not noted again. -/
theorem note_of_mem {seen : List α} {a : α} (h : a ∈ seen) : note seen a = seen := if_pos h

/-- What was not seen is noted behind everything else. -/
theorem note_of_notMem {seen : List α} {a : α} (h : a ∉ seen) : note seen a = seen ++ [a] :=
  if_neg h

/-- After a member was noted, it has been seen, and what was seen before has. -/
@[simp] theorem mem_note {seen : List α} {a x : α} : x ∈ note seen a ↔ x ∈ seen ∨ x = a := by
  by_cases h : a ∈ seen
  · rw [note_of_mem h]
    exact ⟨.inl, fun hx => hx.elim id (· ▸ h)⟩
  · simp [note_of_notMem h]

/-- After a list was noted, its members have been seen, and what was seen before has. -/
theorem mem_noted {seen as : List α} {x : α} : x ∈ noted seen as ↔ x ∈ seen ∨ x ∈ as := by
  induction as generalizing seen with
  | nil => simp
  | cons a as ih => rw [noted_cons, ih, mem_note, List.mem_cons, or_assoc]

/-- Noting a member adds to the end. -/
theorem prefix_note (seen : List α) (a : α) : seen <+: note seen a := by
  by_cases h : a ∈ seen
  · rw [note_of_mem h]
  · rw [note_of_notMem h]
    exact List.prefix_append _ _

/-- What was seen keeps its place. -/
theorem prefix_noted (seen as : List α) : seen <+: noted seen as := by
  induction as generalizing seen with
  | nil => exact List.prefix_rfl
  | cons a as ih => exact (prefix_note seen a).trans (ih _)

/-- Seeing again what was seen changes nothing. -/
theorem noted_of_subset {seen as : List α} (h : as ⊆ seen) : noted seen as = seen := by
  induction as with
  | nil => rfl
  | cons a as ih =>
    rw [List.cons_subset] at h
    rw [noted_cons, note_of_mem h.1, ih h.2]

/-- Things that are all new are put at the end. -/
theorem noted_of_disjoint {seen as : List α} (has : as.Nodup) (h : ∀ a ∈ as, a ∉ seen) :
    noted seen as = seen ++ as := by
  induction as generalizing seen with
  | nil => simp
  | cons a as ih =>
    obtain ⟨ha, has⟩ := List.nodup_cons.1 has
    rw [noted_cons, note_of_notMem (h a (by simp)), ih has fun x hx hmem => ?_, List.append_assoc]
    · rfl
    · rcases List.mem_append.1 hmem with hmem | hmem
      · exact h x (.tail _ hx) hmem
      · exact ha (List.mem_singleton.1 hmem ▸ hx)

/-- If what is used was defined before, what is seen are the definitions. -/
theorem noted_mentions {β : Type} {defines uses : β → List α} {xs : List β}
    (hnodup : (xs.flatMap defines).Nodup)
    (hknown : ∀ front x back, xs = front ++ x :: back → uses x ⊆ front.flatMap defines) :
    noted [] (xs.flatMap fun x => defines x ++ uses x) = xs.flatMap defines := by
  induction xs using List.reverseRecOn with
  | nil => rfl
  | append_singleton xs x ih =>
    rw [List.flatMap_append, List.flatMap_singleton] at hnodup
    obtain ⟨hfront, hlast, hdisjoint⟩ := List.nodup_append'.1 hnodup
    have hxs := ih hfront fun front y back heq =>
      hknown front y (back ++ [x]) (by rw [heq, List.append_assoc, List.cons_append])
    have huses : uses x ⊆ xs.flatMap defines ++ defines x :=
      List.Subset.trans (hknown xs x [] rfl) (List.subset_append_left _ _)
    rw [List.flatMap_append, List.flatMap_append, noted_append, hxs, List.flatMap_singleton,
      List.flatMap_singleton, noted_append,
      noted_of_disjoint hlast fun a ha hmem => hdisjoint hmem ha, noted_of_subset huses]

/-- The place at which something is put is its place from then on. -/
theorem idxOf_of_extends {as bs : List α} (h : as <+: bs) {a : α} (ha : a ∈ as) :
    bs.idxOf a = as.idxOf a := by
  obtain ⟨cs, rfl⟩ := h
  exact List.idxOf_append_of_mem ha

/-- The place of a member is where it stands after it was noted. -/
theorem placeIn_eq (a : α) (seen : List α) :
    placeIn a seen = ((note seen a).idxOf a, note seen a) := by
  by_cases h : a ∈ seen
  · rw [placeIn, if_pos h, note_of_mem h]
  · rw [placeIn, if_neg h, note_of_notMem h, List.idxOf_append_of_notMem h]
    simp

end Noted

/-! ## Numberings -/

namespace Numbering

/-- A numbering, after some values and blocks were mentioned. -/
def after (n : Numbering) (vs : List ValueId) (bs : List BlockId) : Numbering :=
  ⟨noted n.values vs, noted n.blocks bs⟩

/-- What one numbering numbers, another one numbers alike. -/
structure Le (n n' : Numbering) : Prop where
  values : n.values <+: n'.values
  blocks : n.blocks <+: n'.blocks

/-- A numbering is no more than itself. -/
theorem Le.refl (n : Numbering) : n.Le n := ⟨List.prefix_rfl, List.prefix_rfl⟩

/-- Being more is transitive. -/
theorem Le.trans {n n' n'' : Numbering} (h : n.Le n') (h' : n'.Le n'') : n.Le n'' :=
  ⟨h.values.trans h'.values, h.blocks.trans h'.blocks⟩

/-- Mentioning things makes a numbering no less. -/
theorem le_after (n : Numbering) (vs : List ValueId) (bs : List BlockId) : n.Le (n.after vs bs) :=
  ⟨prefix_noted _ _, prefix_noted _ _⟩

/-- Mentioning things in two steps is mentioning all of them. -/
theorem after_after (n : Numbering) (vs vs' : List ValueId) (bs bs' : List BlockId) :
    (n.after vs bs).after vs' bs' = n.after (vs ++ vs') (bs ++ bs') := by
  simp only [after, noted_append]

/-- A value in a complete numbering. -/
def valueLabel (n : Numbering) (v : ValueId) : String := "%" ++ toString (n.values.idxOf v)

/-- A block in a complete numbering. -/
def blockLabel (n : Numbering) (b : BlockId) : String := "^bb" ++ toString (n.blocks.idxOf b)

/-- A place can be read off a label. -/
theorem idxOf_inj_of_label {α : Type} [DecidableEq α] {seen : List α} {a b : α} (ha : a ∈ seen)
    {front : String}
    (h : front ++ toString (seen.idxOf a) = front ++ toString (seen.idxOf b)) : a = b := by
  have hdigits : Nat.toDigits 10 (seen.idxOf a) = Nat.toDigits 10 (seen.idxOf b) := by
    simpa [← String.toList_inj, String.toList_append, toString] using h
  exact (List.idxOf_inj ha).1 (toDigits_injective (by decide) (by decide) hdigits)

/-- A value with a number has a label of its own. -/
theorem valueLabel_inj {n : Numbering} {v w : ValueId} (hv : v ∈ n.values)
    (h : n.valueLabel v = n.valueLabel w) : v = w := idxOf_inj_of_label hv h

/-- A block with a number has a label of its own. -/
theorem blockLabel_inj {n : Numbering} {b c : BlockId} (hb : b ∈ n.blocks)
    (h : n.blockLabel b = n.blockLabel c) : b = c := idxOf_inj_of_label hb h

/-- Results, kind, operands and successors of an operation in a complete numbering. -/
def head (n : Numbering) (colors : Bool) (m : Module) (id : OpId) : String :=
  let o := m.op id
  (if o.results.isEmpty then "" else Text.commas (o.results.map n.valueLabel) ++ " = ") ++
    kindText colors o.kind ++ "(" ++ Text.commas (o.operands.map n.valueLabel) ++ ")" ++
    if o.successors.isEmpty then ""
    else "[" ++ Text.commas (o.successors.map n.blockLabel) ++ "]"

/-- The header of a block in a complete numbering. -/
def header (n : Numbering) (m : Module) (b : BlockId) : String :=
  let args := (m.block b).args
  if args.isEmpty then n.blockLabel b ++ ":"
  else n.blockLabel b ++ "(" ++
    Text.commas (args.map fun v => n.valueLabel v ++ ": " ++ (m.typeOf v).text) ++ "):"

end Numbering

/-! ## Printing steps -/

/-- A printing step that starts with some blocks known: it mentions values and blocks, in order, and
gives what `f` says of every numbering that knows them. -/
structure Prints {α : Type} (known : List BlockId) (x : StateM Numbering α) (vs : List ValueId)
    (bs : List BlockId) (f : Numbering → α) : Prop where
  state : ∀ n, known ⊆ n.blocks → (x n).2 = n.after vs bs
  outcome : ∀ n n', known ⊆ n.blocks → (n.after vs bs).Le n' → (x n).1 = f n'

namespace Prints

variable {α β : Type} {known : List BlockId} {x : StateM Numbering α} {vs vs' : List ValueId}
  {bs bs' : List BlockId} {f : Numbering → α}

/-- A text of its own mentions nothing. -/
theorem pure (known : List BlockId) (a : α) : Prints known (pure a) [] [] fun _ => a :=
  ⟨fun _ _ => rfl, fun _ _ _ _ => rfl⟩

/-- A step may know more blocks. -/
theorem mono {known' : List BlockId} (h : Prints known x vs bs f) (hsub : known ⊆ known') :
    Prints known' x vs bs f :=
  ⟨fun n hn => h.state n (List.Subset.trans hsub hn),
    fun n n' hn => h.outcome n n' (List.Subset.trans hsub hn)⟩

/-- Mentioning blocks that are known changes nothing. -/
theorem forget (h : Prints known x vs bs f) (hsub : bs ⊆ known) : Prints known x vs [] f := by
  have hafter : ∀ n : Numbering, known ⊆ n.blocks → n.after vs bs = n.after vs [] := by
    intro n hn
    simp only [Numbering.after, noted_of_subset (List.Subset.trans hsub hn), noted_nil]
  exact ⟨fun n hn => (h.state n hn).trans (hafter n hn),
    fun n n' hn hle => h.outcome n n' hn (by rwa [hafter n hn])⟩

/-- **Steps one after the other**: the second one knows the blocks that the first one mentions. -/
theorem bind {g : α → StateM Numbering β} {h : α → Numbering → β} (hx : Prints known x vs bs f)
    (hg : ∀ a, Prints (known ++ bs) (g a) vs' bs' (h a)) :
    Prints known (x >>= g) (vs ++ vs') (bs ++ bs') fun n => h (f n) n := by
  have hknown : ∀ n : Numbering, known ⊆ n.blocks → known ++ bs ⊆ (x n).2.blocks := by
    intro n hn b hb
    rw [hx.state n hn]
    exact mem_noted.2 ((List.mem_append.1 hb).imp_left fun hmem => hn hmem)
  refine ⟨fun n hn => ?_, fun n n' hn hle => ?_⟩
  · change (g (x n).1 (x n).2).2 = _
    rw [(hg _).state _ (hknown n hn), hx.state n hn, Numbering.after_after]
  · rw [← Numbering.after_after] at hle
    have hfirst : (x n).1 = f n' := hx.outcome n n' hn ((Numbering.le_after _ _ _).trans hle)
    change (g (x n).1 (x n).2).1 = _
    rw [(hg _).outcome _ n' (hknown n hn) (by rwa [hx.state n hn]), hfirst]

/-- What is made of the outcome of a step. -/
theorem map (hx : Prints known x vs bs f) (g : α → β) :
    Prints known (do return g (← x)) vs bs fun n => g (f n) := by
  have h := hx.bind (g := fun a => Pure.pure (g a)) fun a => Prints.pure _ (g a)
  simpa only [List.append_nil] using h

/-- The same step for every member of a list. -/
theorem mapM {γ : Type} {g : γ → StateM Numbering β} {values : γ → List ValueId}
    {blocks : γ → List BlockId} {h : γ → Numbering → β} {cs : List γ}
    (hg : ∀ c ∈ cs, Prints known (g c) (values c) (blocks c) (h c)) :
    Prints known (cs.mapM g) (cs.flatMap values) (cs.flatMap blocks)
      fun n => cs.map fun c => h c n := by
  induction cs with
  | nil => exact Prints.pure known []
  | cons c cs ih =>
    obtain ⟨hc, hcs⟩ := List.forall_mem_cons.1 hg
    rw [List.mapM_cons]
    exact hc.bind fun b => ((ih hcs).mono (List.subset_append_left _ _)).map fun rest => b :: rest

/-- A step that mentions one value, for every value of a list. -/
theorem mapM_values {g : ValueId → StateM Numbering β} {h : ValueId → Numbering → β}
    (hg : ∀ v, Prints known (g v) [v] [] (h v)) (vs : List ValueId) :
    Prints known (vs.mapM g) vs [] fun n => vs.map fun v => h v n := by
  have hall := Prints.mapM fun v (_ : v ∈ vs) => hg v
  rwa [List.flatMap_singleton', List.flatMap_eq_nil_iff.2 fun _ _ => rfl] at hall

/-- A step that mentions one block, for every block of a list. -/
theorem mapM_blocks {g : BlockId → StateM Numbering β} {h : BlockId → Numbering → β}
    (hg : ∀ b, Prints known (g b) [] [b] (h b)) (bs : List BlockId) :
    Prints known (bs.mapM g) [] bs fun n => bs.map fun b => h b n := by
  have hall := Prints.mapM fun b (_ : b ∈ bs) => hg b
  rwa [List.flatMap_singleton', List.flatMap_eq_nil_iff.2 fun _ _ => rfl] at hall

/-- A step with a numbering of its own mentions nothing outside. -/
theorem inScope {n : Numbering} (hx : Prints [] x vs bs f)
    (hn : (({} : Numbering).after vs bs).Le n) :
    Prints known (inScope true x) [] [] fun _ => f n :=
  ⟨fun _ _ => rfl, fun _ _ _ _ => hx.outcome {} n (List.nil_subset _) hn⟩

end Prints

/-! ## Parts of lines -/

/-- The text of a value mentions the value. -/
theorem prints_valueText (v : ValueId) :
    Prints [] (valueText v) [v] [] fun n => n.valueLabel v := by
  have hvalue : Prints [] (Numbering.value v) [v] [] fun n => n.values.idxOf v := by
    refine ⟨fun n _ => ?_, fun n n' _ hle => ?_⟩
    · simp only [Numbering.value, placeIn_eq]
      rfl
    · have hmem : v ∈ note n.values v := mem_note.2 (.inr rfl)
      simp only [Numbering.value, placeIn_eq]
      exact (idxOf_of_extends hle.values hmem).symm
  exact hvalue.map fun k => "%" ++ toString k

/-- The number of a block mentions the block. -/
theorem prints_block (b : BlockId) :
    Prints [] (Numbering.block b) [] [b] fun n => n.blocks.idxOf b := by
  refine ⟨fun n _ => ?_, fun n n' _ hle => ?_⟩
  · simp only [Numbering.block, placeIn_eq]
    rfl
  · have hmem : b ∈ note n.blocks b := mem_note.2 (.inr rfl)
    simp only [Numbering.block, placeIn_eq]
    exact (idxOf_of_extends hle.blocks hmem).symm

/-- The text of a block mentions the block. -/
theorem prints_blockText (b : BlockId) :
    Prints [] (blockText b) [] [b] fun n => n.blockLabel b :=
  (prints_block b).map fun k => "^bb" ++ toString k

/-- The text of values mentions them, in order. -/
theorem prints_valuesText (vs : List ValueId) :
    Prints [] (valuesText vs) vs [] fun n => Text.commas (vs.map n.valueLabel) :=
  (Prints.mapM_values prints_valueText vs).map Text.commas

/-- The text of results mentions them, in order. -/
theorem prints_resultsText (vs : List ValueId) : Prints [] (resultsText vs) vs [] fun n =>
    if vs.isEmpty then "" else Text.commas (vs.map n.valueLabel) ++ " = " := by
  cases vs with
  | nil => exact Prints.pure [] ""
  | cons v vs => exact (prints_valuesText (v :: vs)).map (· ++ " = ")

/-- The text of successors mentions them, in order. -/
theorem prints_successorsText (bs : List BlockId) : Prints [] (successorsText bs) [] bs fun n =>
    if bs.isEmpty then "" else "[" ++ Text.commas (bs.map n.blockLabel) ++ "]" := by
  cases bs with
  | nil => exact Prints.pure [] ""
  | cons b bs =>
    exact (Prints.mapM_blocks prints_blockText (b :: bs)).map fun labels =>
      "[" ++ Text.commas labels ++ "]"

/-- **What precedes the regions of an operation** mentions its results, operands and successors. -/
theorem prints_headText (colors : Bool) (m : Module) (id : OpId) :
    Prints [] (headText colors m id) ((m.op id).results ++ (m.op id).operands)
      (m.op id).successors fun n => n.head colors m id := by
  have hsuccessors : ∀ front : String, Prints [] (do return front ++ (← successorsText
      (m.op id).successors)) [] (m.op id).successors _ := fun front =>
    (prints_successorsText (m.op id).successors).map fun successors => front ++ successors
  have hoperands := fun front : String =>
    (prints_valuesText (m.op id).operands).bind fun operands =>
      hsuccessors (front ++ operands ++ ")")
  have hhead := (prints_resultsText (m.op id).results).bind fun results =>
    hoperands (results ++ kindText colors (m.op id).kind ++ "(")
  simp only [List.append_nil] at hhead
  exact hhead

/-- The header of a block that is known mentions its arguments. -/
theorem prints_blockHeader (m : Module) (b : BlockId) :
    Prints [b] (blockHeader m b) (m.block b).args [] fun n => n.header m b := by
  have hlabel : Prints [b] (blockText b) [] [] fun n => n.blockLabel b :=
    ((prints_blockText b).mono (List.nil_subset _)).forget (List.Subset.refl _)
  have hargs : Prints [] ((m.block b).args.mapM (argText m)) (m.block b).args [] fun n =>
      (m.block b).args.map fun v => n.valueLabel v ++ ": " ++ (m.typeOf v).text :=
    Prints.mapM_values (fun v => (prints_valueText v).map fun label =>
      label ++ ": " ++ (m.typeOf v).text) _
  unfold blockHeader Numbering.header
  by_cases hempty : (m.block b).args.isEmpty = true
  · rw [List.isEmpty_iff.1 hempty]
    exact hlabel.map (· ++ ":")
  · simp only [hempty]
    exact hlabel.bind fun label => (hargs.mono (List.nil_subset _)).map fun args =>
      label ++ "(" ++ Text.commas args ++ "):"

end ContractIR.Print
