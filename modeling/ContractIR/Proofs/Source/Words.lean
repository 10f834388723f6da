import ContractIR.Proofs.Source.Limit
import ContractIR.Proofs.Source.Positions

/-!
# Positions in words

Locations keep the line and the column of a position in words of 32 bits.  The line is cut off to a
word, and so is the number of characters in front of the place, to which one is added.  The limit on
lines leaves plenty of room for the line.  The limit on the length of a text is the greatest word,
so the number of characters fits, too.  One more fits unless there are as many characters as bytes
are allowed: this is the end of a text of the greatest length that is one line of characters of one
byte, and there the column becomes zero.

## Main definitions

* `ContractIR.Position.inWords`, `ContractIR.Position.FitsWords` — a position in words, and that
  nothing is lost.
* `ContractIR.IsPlainLine` — a text is one line of characters of one byte.

## Main results

* `ContractIR.Source.le_of_ofText` — what the limits say of a text that is taken in.
* `ContractIR.IsPosition.maxBytes_lt_column_iff` — the only column that is too large.
* `ContractIR.Source.position_fitsWords_iff` — which positions fit.
-/

set_option autoImplicit false

namespace ContractIR

/-! ## Words -/

namespace Position

/-- A line and a column in words: the line is cut off, and one is added to the characters in front
of the column after they were cut off. -/
def inWords (p : Nat × Nat) : UInt32 × UInt32 := (UInt32.ofNat p.1, UInt32.ofNat (p.2 - 1) + 1)

/-- Nothing is lost when a position is kept in words: neither when the line and the characters in
front of the column are cut off, nor when one is added. -/
structure FitsWords (p : Nat × Nat) : Prop where
  line : (inWords p).1.toNat = p.1
  characters : (UInt32.ofNat (p.2 - 1)).toNat = p.2 - 1
  column : (inWords p).2.toNat = p.2

/-- Words hold the numbers up to `maxBytes`. -/
theorem toNat_ofNat_eq_iff {n : Nat} : (UInt32.ofNat n).toNat = n ↔ n ≤ Source.maxBytes := by
  rw [UInt32.toNat_ofNat', Source.maxBytes]
  omega

/-- A position fits if both numbers are at most `maxBytes`.

**Proof sketch.** A number is kept in a word exactly if it is below `2 ^ 32`.  The column is kept
as one more than a word, so that word and the sum both have to be kept. -/
theorem fitsWords_iff {line column : Nat} (hcolumn : 0 < column) :
    FitsWords (line, column) ↔ line ≤ Source.maxBytes ∧ column ≤ Source.maxBytes := by
  have hsum : (UInt32.ofNat (column - 1) + 1).toNat = column % 2 ^ 32 := by
    rw [UInt32.toNat_add, UInt32.toNat_ofNat', Nat.mod_add_mod]
    exact congrArg (· % 2 ^ 32) (Nat.sub_add_cancel hcolumn)
  constructor
  · rintro ⟨hline, -, hadd⟩
    refine ⟨toNat_ofNat_eq_iff.1 hline, ?_⟩
    simp only [inWords] at hadd
    rw [hsum] at hadd
    rw [Source.maxBytes]
    omega
  · rintro ⟨hline, hle⟩
    refine ⟨toNat_ofNat_eq_iff.2 hline, toNat_ofNat_eq_iff.2 (by simp only; omega), ?_⟩
    simp only [inWords]
    rw [hsum]
    rw [Source.maxBytes] at hle
    omega

end Position

/-! ## Texts without room -/

/-- A text is one line, and every character of it takes one byte. -/
def IsPlainLine (text : List Char) : Prop := ∀ c ∈ text, c.utf8Size = 1 ∧ ¬IsBreak c

/-- Only no characters at all take no bytes. -/
theorem eq_nil_of_byteLength {cs : List Char} (h : byteLength cs = 0) : cs = [] := by
  have hle := length_le_byteLength cs
  exact List.length_eq_zero_iff.1 (by omega)

/-- Every character takes one byte if there are as many of them as bytes. -/
theorem utf8Size_eq_one_of_length {cs : List Char} (h : byteLength cs ≤ cs.length) :
    ∀ c ∈ cs, c.utf8Size = 1 := by
  induction cs with
  | nil => simp
  | cons c cs ih =>
    have hpos := c.utf8Size_pos
    have hle := length_le_byteLength cs
    rw [byteLength_cons, List.length_cons] at h
    exact List.forall_mem_cons.2 ⟨by omega, ih (by omega)⟩

/-- A plain line has as many characters as bytes. -/
theorem IsPlainLine.byteLength_eq {cs : List Char} (h : IsPlainLine cs) :
    byteLength cs = cs.length := by
  induction cs with
  | nil => rfl
  | cons c cs ih =>
    obtain ⟨hc, hcs⟩ := List.forall_mem_cons.1 h
    rw [byteLength_cons, hc.1, ih hcs, List.length_cons, Nat.add_comm]

/-- Without breaks there are no terminators.

**Proof sketch.** From left to right by induction on the text: a line feed ends a line, and a
carriage return does so or has a line feed behind it.  The converse is `terminatorEnds_append`. -/
theorem terminatorEnds_eq_nil_iff {offset : Nat} {cs : List Char} :
    terminatorEnds offset cs = [] ↔ ∀ c ∈ cs, ¬IsBreak c := by
  constructor
  · induction cs generalizing offset with
    | nil => simp
    | cons c cs ih =>
      rw [terminatorEnds]
      split
      · simp
      · rename_i hc
        intro hnone
        have hcs := ih hnone
        refine List.forall_mem_cons.2 ⟨?_, hcs⟩
        -- a carriage return that ends nothing is followed by a line feed
        rintro (rfl | rfl)
        · refine hc (.inr ⟨rfl, fun hfeed => ?_⟩)
          exact hcs '\n' (List.mem_of_mem_head? (Option.mem_def.2 hfeed)) (.inr rfl)
        · exact hc (.inl rfl)
  · intro hcs
    have hends := terminatorEnds_append hcs offset []
    rwa [List.append_nil, terminatorEnds] at hends

/-- Terminators end behind the start of a text, and not behind its end. -/
theorem bounds_of_mem_terminatorEnds {offset stop : Nat} {cs : List Char}
    (h : stop ∈ terminatorEnds offset cs) : offset < stop ∧ stop ≤ offset + byteLength cs := by
  induction cs generalizing offset with
  | nil => cases h
  | cons c cs ih =>
    have hpos := c.utf8Size_pos
    rw [byteLength_cons]
    rw [terminatorEnds] at h
    split at h
    · rcases List.mem_cons.1 h with rfl | h
      · omega
      · have hstop := ih h
        omega
    · have hstop := ih h
      omega

namespace IsPosition

variable {text : List Char} {offset line column : Nat}

/-- On a plain line the column is one more than the offset.

**Proof sketch.** A plain line has no terminators, so it is line one and starts at zero; each of
its characters is one byte, so the characters in front of the offset are as many as the offset
says. -/
theorem eq_of_isPlainLine (h : IsPosition text offset line column) (hplain : IsPlainLine text)
    (hoffset : offset ≤ byteLength text) : line = 1 ∧ column = offset + 1 := by
  obtain ⟨hline, lead, inside, after, htext, hstart, hends, hcolumn⟩ := h
  have hnone : terminatorEnds 0 text = [] :=
    terminatorEnds_eq_nil_iff.2 fun c hc => (hplain c hc).2
  rw [hnone, List.countP_nil] at hline
  rw [hnone, hline] at hstart
  have hlead : lead = [] := eq_nil_of_byteLength (Option.some.inj hstart).symm
  rw [hlead, List.nil_append] at htext hends
  have hplainInside : IsPlainLine inside := fun c hc => hplain c (htext ▸ List.mem_append_left _ hc)
  have hinside : byteLength inside = offset := by
    have hle := hends.le
    cases after with
    | nil =>
      rw [List.append_nil] at htext
      rw [htext] at hoffset
      exact Nat.le_antisymm hle hoffset
    | cons c after =>
      have hlt := hends.lt c rfl
      rw [(hplain c (by simp [htext])).1] at hlt
      omega
  exact ⟨hline, by rw [hcolumn, ← hplainInside.byteLength_eq, hinside]⟩

/-- **The only column that is too large** in a text of at most `maxBytes` bytes: at the end of a
plain line of the greatest length.

**Proof sketch.** In front of such a column stand at least `maxBytes` characters, on one line.  They
are as many as bytes are allowed, so nothing else stands in the text, each of them takes one byte,
and the line starts at the start of the text, where no terminator ends. -/
theorem maxBytes_lt_column_iff (h : IsPosition text offset line column)
    (hsize : byteLength text ≤ Source.maxBytes) (hoffset : offset ≤ byteLength text) :
    Source.maxBytes < column ↔ offset = Source.maxBytes ∧ IsPlainLine text := by
  constructor
  · intro hlarge
    obtain ⟨hline, lead, inside, after, htext, hstart, ⟨hends, -⟩, rfl⟩ := h
    have hinside := length_le_byteLength inside
    have hbytes : byteLength text = byteLength lead + byteLength inside + byteLength after := by
      rw [htext, byteLength_append, byteLength_append]
    rw [byteLength_append] at hends
    have hlead : byteLength lead = 0 := by omega
    have hafter : byteLength after = 0 := by omega
    rw [eq_nil_of_byteLength hlead, eq_nil_of_byteLength hafter, List.nil_append,
      List.append_nil] at htext
    have hnone : terminatorEnds 0 text = [] := by
      -- every terminator ends at or before the offset, so the line starts where the last one ends
      have hall : (terminatorEnds 0 text).countP (· ≤ offset) = (terminatorEnds 0 text).length := by
        refine List.countP_eq_length.2 fun stop hstop => ?_
        have hbound := (bounds_of_mem_terminatorEnds hstop).2
        exact decide_eq_true (by omega)
      rw [hlead, hline, hall, Nat.add_sub_cancel_left] at hstart
      cases hends : terminatorEnds 0 text with
      | nil => rfl
      | cons stop stops =>
        rw [hends, List.length_cons, List.getElem?_cons_succ, ← hends] at hstart
        exact absurd (bounds_of_mem_terminatorEnds (List.mem_of_getElem? hstart)).1
          (Nat.lt_irrefl 0)
    refine ⟨by omega, fun c hc => ⟨?_, terminatorEnds_eq_nil_iff.1 hnone c hc⟩⟩
    exact utf8Size_eq_one_of_length (by omega) c (htext ▸ hc)
  · rintro ⟨rfl, hplain⟩
    rw [(h.eq_of_isPlainLine hplain hoffset).2]
    exact Nat.lt_succ_self _

end IsPosition

namespace Source

variable {name text : String} {s : Source}

/-- A text that is taken in is within the limits. -/
theorem le_of_ofText (h : ofText name text = .ok s) :
    text.utf8ByteSize ≤ maxBytes ∧ lineTotal text ≤ maxLines := by
  have hsize : text.utf8ByteSize ≤ maxBytes := by
    refine Nat.not_lt.1 fun hlarge => ?_
    unfold ofText at h
    simp only at h
    rw [if_pos hlarge] at h
    cases h
  refine ⟨hsize, Nat.not_lt.1 fun hmany => ?_⟩
  rw [ofText_eq hsize, if_pos ((overflows_iff text).2 (.inl hmany))] at h
  cases h

/-- **Positions fit into words**, with one exception.  In a text that is taken in, every offset up
to the end has a position.  Its line is within the limit on lines, its column is at most `maxBytes`,
and nothing is lost when it is kept in words, unless the text is a plain line of `maxBytes` bytes
and the offset is its end.  There the column is greater by one, and zero is kept.

**Proof sketch.** The position is the right one (`exists_isPosition`).  Its line is one more than
the terminators in front and within the limit, so it fits exactly if the column is at most
`maxBytes` (`Position.fitsWords_iff`), and `maxBytes_lt_column_iff` says where it is not. -/
theorem position_fitsWords_iff (h : ofText name text = .ok s) {offset : Nat}
    (hoffset : offset ≤ text.utf8ByteSize) :
    ∃ line column, s.position offset = .ok (line, column) ∧ line ≤ maxLines ∧
      (column ≤ maxBytes ↔ ¬(offset = maxBytes ∧ IsPlainLine text.toList)) ∧
      (Position.FitsWords (line, column) ↔ ¬(offset = maxBytes ∧ IsPlainLine text.toList)) ∧
      (offset = maxBytes ∧ IsPlainLine text.toList →
        (line, column) = (1, maxBytes + 1) ∧ Position.inWords (line, column) = (1, 0)) := by
  obtain ⟨hsize, hlines⟩ := le_of_ofText h
  rw [utf8ByteSize_eq_byteLength] at hsize hoffset
  obtain ⟨line, column, hposition, hright⟩ := exists_isPosition h hoffset
  have hline : line ≤ maxLines := by
    rw [hright.line_eq]
    exact Nat.le_trans (Nat.add_le_add_left List.countP_le_length 1) hlines
  have hcolumn : column ≤ maxBytes ↔ ¬(offset = maxBytes ∧ IsPlainLine text.toList) := by
    rw [← hright.maxBytes_lt_column_iff hsize hoffset, Nat.not_lt]
  have hpos : 0 < column := by
    obtain ⟨-, -, -, -, -, -, rfl⟩ := hright.exists_slice
    exact Nat.succ_pos _
  refine ⟨line, column, hposition, hline, hcolumn, ?_, ?_⟩
  · rw [Position.fitsWords_iff hpos, ← hcolumn]
    exact and_iff_right (Nat.le_trans hline (by decide))
  · rintro ⟨rfl, hplain⟩
    obtain ⟨rfl, rfl⟩ := hright.eq_of_isPlainLine hplain hoffset
    exact ⟨rfl, by decide⟩

/-- A plain line that is not too long is taken in. -/
theorem exists_ofText_of_isPlainLine (name : String) (hplain : IsPlainLine text.toList)
    (hsize : text.utf8ByteSize ≤ maxBytes) : ∃ s, ofText name text = .ok s := by
  have htotal : lineTotal text = 1 := by
    rw [lineTotal, terminatorEnds_eq_nil_iff.2 fun c hc => (hplain c hc).2]
    rfl
  have hfew : ¬overflows (splitLines text.toList) text.utf8ByteSize = true := by
    rw [overflows_iff, htotal, maxLines]
    omega
  exact ⟨_, by rw [ofText_eq hsize, if_neg hfew]⟩

/-- A character of one byte, over and over, is a plain line. -/
theorem isPlainLine_repeatText {unit : String} (h : IsPlainLine unit.toList) (n : Nat) :
    IsPlainLine (repeatText unit n).toList := by
  intro c hc
  rw [repeatText, String.toList_ofList, List.mem_flatten] at hc
  obtain ⟨cs, hcs, hc⟩ := hc
  rw [List.eq_of_mem_replicate hcs] at hc
  exact h c hc

/-- The longest plain line is taken in. -/
theorem exists_ofText_longestLine : IsPlainLine (repeatText "x" maxBytes).toList ∧
    (repeatText "x" maxBytes).utf8ByteSize = maxBytes ∧
    ∃ s, ofText "long.sol" (repeatText "x" maxBytes) = .ok s := by
  have hunit : IsPlainLine "x".toList := by
    intro c hc
    obtain rfl : c = 'x' := List.mem_singleton.1 hc
    exact ⟨by decide, by decide⟩
  have hplain := isPlainLine_repeatText hunit maxBytes
  have hsize : (repeatText "x" maxBytes).utf8ByteSize = maxBytes := by
    have hone : "x".utf8ByteSize = 1 := by decide
    rw [utf8ByteSize_repeatText, hone, Nat.mul_one]
  exact ⟨hplain, hsize, exists_ofText_of_isPlainLine _ hplain (Nat.le_of_eq hsize)⟩

/-- On the longest plain line, the column in front of the last character fits. -/
theorem longestLine_beforeEnd :
    ∃ s, ofText "long.sol" (repeatText "x" maxBytes) = .ok s ∧
      maxBytes - 1 ≤ (repeatText "x" maxBytes).utf8ByteSize ∧
      ∃ line column, s.position (maxBytes - 1) = .ok (line, column) ∧
        Position.FitsWords (line, column) := by
  obtain ⟨-, hsize, s, hs⟩ := exists_ofText_longestLine
  have hoffset : maxBytes - 1 ≤ (repeatText "x" maxBytes).utf8ByteSize :=
    Nat.le_trans (Nat.sub_le _ _) (Nat.le_of_eq hsize.symm)
  obtain ⟨line, column, hposition, -, -, hfits, -⟩ := position_fitsWords_iff hs hoffset
  exact ⟨s, hs, hoffset, line, column, hposition, hfits.2 fun h => absurd h.1 (by decide)⟩

/-- At the end of the longest plain line, the column is too large for a word, and zero is kept. -/
theorem longestLine_atEnd :
    ∃ s, ofText "long.sol" (repeatText "x" maxBytes) = .ok s ∧
      maxBytes ≤ (repeatText "x" maxBytes).utf8ByteSize ∧
      s.position maxBytes = .ok (1, maxBytes + 1) ∧ ¬maxBytes + 1 ≤ maxBytes ∧
      Position.inWords (1, maxBytes + 1) = (1, 0) := by
  obtain ⟨hplain, hsize, s, hs⟩ := exists_ofText_longestLine
  have hoffset : maxBytes ≤ byteLength (repeatText "x" maxBytes).toList := by
    rw [← utf8ByteSize_eq_byteLength]
    exact Nat.le_of_eq hsize.symm
  obtain ⟨line, column, hposition, hright⟩ := exists_isPosition hs hoffset
  obtain ⟨rfl, rfl⟩ := hright.eq_of_isPlainLine hplain hoffset
  exact ⟨s, hs, Nat.le_of_eq hsize.symm, hposition, by decide, by decide⟩

end Source

end ContractIR
