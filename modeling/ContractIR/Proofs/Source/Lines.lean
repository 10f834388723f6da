import ContractIR.Source

/-!
# How a text is cut into lines

Cutting reads a text once and collects characters until a terminator ends the line.  What comes out
is said without the reading: every line but the last one is followed by a terminator, no line has a
carriage return or a line feed, and every line knows at which byte it starts.

Terminators can also be found without lines.  One ends after every line feed, and after every
carriage return that is not followed by a line feed.  A text has one line more than it has
terminators, and every line but the first one starts where a terminator ends.

## Main definitions

* `ContractIR.byteLength` — the length of characters in bytes.
* `ContractIR.terminatorEnds`, `ContractIR.lineTotal` — where terminators end, and the number of
  lines by the number of terminators.
* `ContractIR.Cut` — the lines of a text.

## Main results

* `ContractIR.cut_splitLines` — splitting a text gives its lines.
* `ContractIR.Cut.map_start` — lines start where terminators end.
* `ContractIR.Cut.exists_line_at` — every offset is in one line.
* `ContractIR.Source.cut_of_ofText` — a source consists of the lines of its text.
-/

set_option autoImplicit false

namespace ContractIR

/-! ## Lengths in bytes -/

/-- The length of characters in UTF-8, in bytes. -/
def byteLength : List Char → Nat
  | [] => 0
  | c :: cs => c.utf8Size + byteLength cs

/-- No characters have no bytes. -/
@[simp] theorem byteLength_nil : byteLength [] = 0 := rfl

/-- The bytes of a character and of those behind it. -/
@[simp] theorem byteLength_cons (c : Char) (cs : List Char) :
    byteLength (c :: cs) = c.utf8Size + byteLength cs := rfl

/-- The bytes of two parts add up. -/
@[simp] theorem byteLength_append (cs ds : List Char) :
    byteLength (cs ++ ds) = byteLength cs + byteLength ds := by
  induction cs with
  | nil => simp
  | cons c cs ih => simp [ih, Nat.add_assoc]

/-- The order of the characters does not change the number of bytes. -/
@[simp] theorem byteLength_reverse (cs : List Char) : byteLength cs.reverse = byteLength cs := by
  induction cs with
  | nil => rfl
  | cons c cs ih => simp [ih, Nat.add_comm]

/-- A character takes at least one byte. -/
theorem length_le_byteLength (cs : List Char) : cs.length ≤ byteLength cs := by
  induction cs with
  | nil => exact Nat.le_refl 0
  | cons c cs ih =>
    have hpos := c.utf8Size_pos
    simp only [List.length_cons, byteLength_cons]
    omega

/-- Characters are not empty. -/
theorem byteLength_pos {cs : List Char} (h : cs ≠ []) : 0 < byteLength cs :=
  Nat.lt_of_lt_of_le (List.length_pos_iff.2 h) (length_le_byteLength cs)

/-- The length of a text is that of its characters. -/
theorem utf8ByteSize_eq_byteLength (text : String) :
    text.utf8ByteSize = byteLength text.toList := by
  suffices h : ∀ cs : List Char, (String.ofList cs).utf8ByteSize = byteLength cs by
    simpa using h text.toList
  intro cs
  induction cs with
  | nil => simp
  | cons c cs ih =>
    rw [← List.singleton_append, String.ofList_append, String.utf8ByteSize_append, ih,
      ← String.singleton_eq_ofList, String.utf8ByteSize_singleton, List.singleton_append,
      byteLength_cons]

/-! ## Terminators -/

/-- Characters that end a line. -/
def IsBreak (c : Char) : Prop := c = '\r' ∨ c = '\n'

instance (c : Char) : Decidable (IsBreak c) := inferInstanceAs (Decidable (_ ∨ _))

/-- The byte offsets at which terminators end: after each line feed, and after each carriage return
that no line feed follows.  The characters start at byte `offset`. -/
def terminatorEnds (offset : Nat) : List Char → List Nat
  | [] => []
  | c :: cs =>
    if c = '\n' ∨ c = '\r' ∧ cs.head? ≠ some '\n' then
      (offset + c.utf8Size) :: terminatorEnds (offset + c.utf8Size) cs
    else terminatorEnds (offset + c.utf8Size) cs

/-- The number of lines of a text: one more than it has terminators. -/
def lineTotal (text : String) : Nat := 1 + (terminatorEnds 0 text.toList).length

/-- No character ends two terminators. -/
theorem length_terminatorEnds_le (offset : Nat) (cs : List Char) :
    (terminatorEnds offset cs).length ≤ cs.length := by
  induction cs generalizing offset with
  | nil => exact Nat.le_refl 0
  | cons c cs ih =>
    unfold terminatorEnds
    split
    · exact Nat.succ_le_succ (ih _)
    · exact Nat.le_succ_of_le (ih _)

/-- Other characters do not end a line. -/
theorem terminatorEnds_append {body : List Char} (hbody : ∀ c ∈ body, ¬IsBreak c)
    (offset : Nat) (cs : List Char) :
    terminatorEnds offset (body ++ cs) = terminatorEnds (offset + byteLength body) cs := by
  induction body generalizing offset with
  | nil => rfl
  | cons c body ih =>
    obtain ⟨hc, hrest⟩ := List.forall_mem_cons.1 hbody
    have hno : ¬(c = '\n' ∨ c = '\r' ∧ (body ++ cs).head? ≠ some '\n') := by
      rintro (h | ⟨h, -⟩)
      · exact hc (.inr h)
      · exact hc (.inl h)
    rw [List.cons_append, terminatorEnds, if_neg hno, ih hrest, byteLength_cons, Nat.add_assoc]

/-- What ends a line where the characters `rest` follow. -/
inductive Terminates : List Char → List Char → Prop
  | feed (rest : List Char) : Terminates ['\n'] rest
  | returnFeed (rest : List Char) : Terminates ['\r', '\n'] rest
  /-- A carriage return alone, if it is not the start of the longer terminator. -/
  | loneReturn {rest : List Char} (h : rest.head? ≠ some '\n') : Terminates ['\r'] rest

namespace Terminates

variable {ending rest : List Char}

/-- Terminators consist of breaks. -/
theorem isBreak (h : Terminates ending rest) : ∀ c ∈ ending, IsBreak c := by
  cases h <;> simp [IsBreak]

/-- Terminators are not empty. -/
theorem ne_nil (h : Terminates ending rest) : ending ≠ [] := by
  cases h <;> simp

/-- A terminator ends once. -/
theorem terminatorEnds_append (h : Terminates ending rest) (offset : Nat) :
    terminatorEnds offset (ending ++ rest) =
      (offset + byteLength ending) :: terminatorEnds (offset + byteLength ending) rest := by
  have hreturn : ('\r').utf8Size = 1 := rfl
  have hfeed : ('\n').utf8Size = 1 := rfl
  cases h with
  | feed => simp [terminatorEnds]
  | returnFeed => simp [terminatorEnds, hreturn, hfeed, Nat.add_assoc]
  | loneReturn hrest => simp [terminatorEnds, hrest]

end Terminates

/-! ## Lines -/

/-- The lines of characters that start at byte `start`. -/
inductive Cut : Nat → List Char → List Line → Prop
  | last {start : Nat} {body : List Char} (hbody : ∀ c ∈ body, ¬IsBreak c) :
    Cut start body [⟨start, body, []⟩]
  | ended {start : Nat} {body ending rest : List Char} {lines : List Line}
    (hbody : ∀ c ∈ body, ¬IsBreak c) (hending : Terminates ending rest)
    (hrest : Cut (start + byteLength (body ++ ending)) rest lines) :
    Cut start (body ++ ending ++ rest) (⟨start, body, ending⟩ :: lines)

/-- A line that was collected in reverse is ended by a terminator. -/
theorem Cut.ended_reverse {start here : Nat} {body ending rest : List Char} {lines : List Line}
    (hhere : here = start + byteLength body) (hbody : ∀ c ∈ body, ¬IsBreak c)
    (hending : Terminates ending rest) (hrest : Cut (here + byteLength ending) rest lines) :
    Cut start (body.reverse ++ (ending ++ rest)) (⟨start, body.reverse, ending⟩ :: lines) := by
  rw [← List.append_assoc]
  refine .ended (fun c hc => hbody c (List.mem_reverse.1 hc)) hending ?_
  rwa [byteLength_append, byteLength_reverse, ← Nat.add_assoc, ← hhere]

/-- Splitting finishes the line that it has begun, then cuts the rest.

**Proof sketch.** Induction along the reading.  The characters of the line that is begun are kept
in reverse, so they stand in front of what is still to be read; at a terminator they become the body
of a line, and the next line begins behind the terminator without any. -/
theorem exists_cut_splitLinesFrom {start here : Nat} {body cs : List Char} (done : Array Line)
    (hhere : here = start + byteLength body) (hbody : ∀ c ∈ body, ¬IsBreak c) :
    ∃ lines, splitLinesFrom start here body done cs = done ++ lines.toArray ∧
      Cut start (body.reverse ++ cs) lines := by
  fun_induction splitLinesFrom start here body done cs with
  | case1 start here body done =>
    have hlast : ∀ c ∈ body.reverse, ¬IsBreak c := fun c hc => hbody c (List.mem_reverse.1 hc)
    exact ⟨_, Array.push_eq_append, by simpa using Cut.last hlast⟩
  | case2 start here body done cs ih =>
    obtain ⟨lines, heq, hcut⟩ := ih rfl (List.forall_mem_nil _)
    exact ⟨_, by simpa using heq, Cut.ended_reverse hhere hbody (.returnFeed cs) hcut⟩
  | case3 start here body done c cs hpair hbreak ih =>
    -- A carriage return in front of a line feed was read with it, in the case before.
    have hending : Terminates [c] cs := by
      rcases hbreak with rfl | rfl
      · refine .loneReturn fun hhead => ?_
        obtain ⟨ds, rfl⟩ := List.head?_eq_some_iff.1 hhead
        exact hpair ds rfl rfl
      · exact .feed cs
    have hsize : byteLength [c] = 1 := by
      rcases hbreak with rfl | rfl <;> rfl
    obtain ⟨lines, heq, hcut⟩ := ih rfl (List.forall_mem_nil _)
    exact ⟨_, by simpa using heq, Cut.ended_reverse hhere hbody hending (hsize ▸ hcut)⟩
  | case4 start here body done c cs hpair hbreak ih =>
    have hnext : here + c.utf8Size = start + byteLength (c :: body) := by
      rw [byteLength_cons]
      omega
    obtain ⟨lines, heq, hcut⟩ := ih hnext (List.forall_mem_cons.2 ⟨hbreak, hbody⟩)
    exact ⟨lines, heq, by simpa using hcut⟩

/-- Splitting a text gives its lines. -/
theorem cut_splitLines (cs : List Char) : Cut 0 cs (splitLines cs).toList := by
  have hbegin : 0 = 0 + byteLength [] := rfl
  obtain ⟨lines, heq, hcut⟩ :=
    exists_cut_splitLinesFrom #[] hbegin (List.forall_mem_nil fun c => ¬IsBreak c)
  rw [splitLines, heq]
  simpa using hcut

namespace Cut

variable {start : Nat} {cs : List Char} {lines : List Line}

/-- There is a line. -/
theorem ne_nil (h : Cut start cs lines) : lines ≠ [] := by
  cases h <;> simp

/-- The lines, with their terminators, are the text. -/
theorem flatMap_chars (h : Cut start cs lines) : lines.flatMap Line.chars = cs := by
  induction h with
  | last => simp [Line.chars]
  | ended _ _ _ ih => simp [Line.chars, ih]

/-- Lines start where terminators end. -/
theorem map_start (h : Cut start cs lines) :
    lines.map Line.start = start :: terminatorEnds start cs := by
  induction h with
  | @last start body hbody =>
    have hends := terminatorEnds_append hbody start []
    rw [List.append_nil] at hends
    simp [hends, terminatorEnds]
  | ended hbody hending _ ih =>
    rw [List.map_cons, ih, List.append_assoc, terminatorEnds_append hbody,
      hending.terminatorEnds_append, byteLength_append, ← Nat.add_assoc]

/-- There is one line more than terminators. -/
theorem length_eq (h : Cut start cs lines) :
    lines.length = 1 + (terminatorEnds start cs).length := by
  rw [← List.length_map Line.start, h.map_start, List.length_cons, Nat.add_comm]

/-- No line has a break. -/
theorem not_isBreak (h : Cut start cs lines) : ∀ l ∈ lines, ∀ c ∈ l.body, ¬IsBreak c := by
  induction h with
  | last hbody => simpa using hbody
  | ended hbody _ _ ih => exact List.forall_mem_cons.2 ⟨hbody, ih⟩

/-- What ends a line are breaks. -/
theorem isBreak_ending (h : Cut start cs lines) : ∀ l ∈ lines, ∀ c ∈ l.ending, IsBreak c := by
  induction h with
  | last => simp
  | ended _ hending _ ih => exact List.forall_mem_cons.2 ⟨hending.isBreak, ih⟩

/-- The first of the lines is the only one and has no terminator, or its terminator is followed by
the other lines. -/
theorem cons_inv {line : Line} {back : List Line} (h : Cut start cs (line :: back)) :
    line.start = start ∧ (∀ c ∈ line.body, ¬IsBreak c) ∧
      (back = [] ∧ line.ending = [] ∨ Terminates line.ending (back.flatMap Line.chars) ∧
        Cut (start + byteLength line.chars) (back.flatMap Line.chars) back) := by
  generalize hlines : line :: back = lines at h
  cases h with
  | last hbody =>
    obtain ⟨rfl, rfl⟩ := List.cons.inj hlines
    exact ⟨rfl, hbody, .inl ⟨rfl, rfl⟩⟩
  | ended hbody hending hrest =>
    obtain ⟨rfl, rfl⟩ := List.cons.inj hlines
    exact ⟨rfl, hbody, .inr ⟨by rwa [hrest.flatMap_chars], by rwa [hrest.flatMap_chars]⟩⟩

/-- What is left of the lines is the lines of what is left. -/
theorem drop {front back : List Line} (h : Cut start cs (front ++ back)) (hback : back ≠ []) :
    Cut (start + byteLength (front.flatMap Line.chars)) (back.flatMap Line.chars) back := by
  induction front generalizing start cs with
  | nil =>
    rw [List.nil_append] at h
    simpa [h.flatMap_chars] using h
  | cons l front ih =>
    obtain ⟨-, -, ⟨hnil, -⟩ | ⟨-, hrest⟩⟩ := h.cons_inv
    · exact absurd (List.append_eq_nil_iff.1 hnil).2 hback
    · have hdrop := ih hrest
      rwa [Nat.add_assoc, ← byteLength_append] at hdrop

/-- A line starts behind the lines in front of it. -/
theorem start_eq {line : Line} {front back : List Line} (h : Cut start cs (front ++ line :: back)) :
    line.start = start + byteLength (front.flatMap Line.chars) :=
  (h.drop (List.cons_ne_nil line back)).cons_inv.1

/-- No line starts before the text. -/
theorem start_le (h : Cut start cs lines) : ∀ l ∈ lines, start ≤ l.start := by
  induction h with
  | last => simp
  | ended _ _ _ ih =>
    refine List.forall_mem_cons.2 ⟨Nat.le_refl _, fun l hl => ?_⟩
    exact Nat.le_trans (Nat.le_add_right _ _) (ih l hl)

/-- The lines behind a line do not start before it ends. -/
theorem end_le_start {line : Line} {front back : List Line}
    (h : Cut start cs (front ++ line :: back)) :
    ∀ m ∈ back, line.start + byteLength line.chars ≤ m.start := by
  have hdrop := h.drop (List.cons_ne_nil line back)
  obtain ⟨hstart, -, ⟨rfl, -⟩ | ⟨-, hrest⟩⟩ := hdrop.cons_inv
  · exact List.forall_mem_nil _
  · rw [hstart]
    exact hrest.start_le

/-- Every offset is in one line: this line and those in front of it start at or before the offset,
and the line ends behind it if it is not the last one. -/
theorem exists_line_at (h : Cut start cs lines) {offset : Nat} (hoffset : start ≤ offset) :
    ∃ front l back, lines = front ++ l :: back ∧ (∀ m ∈ front, m.start ≤ offset) ∧
      l.start ≤ offset ∧ (back ≠ [] → offset < l.start + byteLength l.chars) := by
  induction h with
  | @last start body => exact ⟨[], ⟨start, body, []⟩, [], rfl, by simp, hoffset, by simp⟩
  | @ended start body ending rest lines _ _ _ ih =>
    by_cases hnext : start + byteLength (body ++ ending) ≤ offset
    · obtain ⟨front, l, back, rfl, hfront, hl, hend⟩ := ih hnext
      exact ⟨⟨start, body, ending⟩ :: front, l, back, rfl,
        List.forall_mem_cons.2 ⟨hoffset, hfront⟩, hl, hend⟩
    · exact ⟨[], ⟨start, body, ending⟩, lines, rfl, by simp, hoffset,
        fun _ => Nat.lt_of_not_le hnext⟩

end Cut

/-! ## Sources -/

namespace Source

variable {name text : String} {s : Source}

/-- A text that is taken in keeps its length, and is cut into lines. -/
theorem cut_of_ofText (h : ofText name text = .ok s) :
    s.bytes = byteLength text.toList ∧ Cut 0 text.toList s.lines.toList := by
  unfold ofText at h
  simp only at h
  split at h
  · cases h
  · split at h
    · cases h
    · cases h
      exact ⟨utf8ByteSize_eq_byteLength text, cut_splitLines text.toList⟩

/-- Lines are numbered from one, and given without their terminators. -/
theorem line?_succ (s : Source) (i : Nat) :
    s.line? (i + 1) = (s.lines.toList[i]?).map fun l => String.ofList l.body := by
  rw [line?, Array.getElem?_toList]

/-- A source has one line more than its text has terminators. -/
theorem lineCount_of_ofText (h : ofText name text = .ok s) : s.lineCount = lineTotal text :=
  (cut_of_ofText h).2.length_eq

end Source

end ContractIR
