import ContractIR.Proofs.Source.Lines

/-!
# Positions in a source

A byte offset is translated in two steps: the lines that start at or before it are counted, and the
characters of the last of these lines are counted as long as they end at or before it.  Both counts
have a meaning that does not mention lines.  The first one is one more than the number of
terminators that end at or before the offset.  The second one is the length of a slice of the text,
from the end of the last of these terminators to the start of the character that the offset is in
or in front of, so that no character is cut.

## Main definitions

* `ContractIR.EndsBy` — the characters of a text that end at or before an offset.
* `ContractIR.Place` — the line of an offset, and the characters in front of it there.
* `ContractIR.IsPosition` — the line and column of an offset, said of the text.
* `ContractIR.Source.Translates` — a source gives the offsets of a text the right positions.

## Main results

* `ContractIR.Cut.exists_place`, `ContractIR.Source.position_eq` — every offset has a place, and its
  position is read off there.
* `ContractIR.Source.exists_isPosition`, `ContractIR.Source.position_eq_of_inside`,
  `ContractIR.Source.exists_position_lex`, `ContractIR.Source.exists_char_at` — positions say where
  an offset is, do not cut characters, are in the order of the offsets, and lead to the character.
* `ContractIR.Source.position_correct` — positions are right.
-/

set_option autoImplicit false

namespace ContractIR

/-! ## Offsets and characters -/

/-- The characters `before` end at or before an offset, and if characters `after` follow, the first
one ends behind it: the offset is in this character or in front of it. -/
structure EndsBy (offset : Nat) (before after : List Char) : Prop where
  le : byteLength before ≤ offset
  lt : ∀ c ∈ after.head?, offset < byteLength before + c.utf8Size

/-- Every offset stands between two parts of a text. -/
theorem exists_endsBy (cs : List Char) (offset : Nat) :
    ∃ before after, cs = before ++ after ∧ EndsBy offset before after := by
  induction cs generalizing offset with
  | nil => exact ⟨[], [], rfl, Nat.zero_le _, by simp⟩
  | cons c cs ih =>
    by_cases hc : c.utf8Size ≤ offset
    · obtain ⟨before, after, rfl, hle, hlt⟩ := ih (offset - c.utf8Size)
      refine ⟨c :: before, after, rfl, by simp only [byteLength_cons]; omega, fun d hd => ?_⟩
      have hd := hlt d hd
      simp only [byteLength_cons]
      omega
    · exact ⟨[], c :: cs, rfl, Nat.zero_le _, by simpa using hc⟩

namespace EndsBy

variable {offset : Nat} {before after xs ys : List Char}

/-- Where a character starts, the characters in front of it end. -/
theorem of_boundary (before after : List Char) : EndsBy (byteLength before) before after :=
  ⟨Nat.le_refl _, fun c _ => Nat.lt_add_of_pos_right c.utf8Size_pos⟩

/-- An offset behind the first part of a text is in the second part. -/
theorem exists_of_le (h : EndsBy offset before after) (heq : xs ++ ys = before ++ after)
    (hle : byteLength xs ≤ offset) : ∃ inside, before = xs ++ inside ∧ ys = inside ++ after := by
  obtain ⟨inside, hbefore, hys⟩ | ⟨cut, hxs, hafter⟩ := List.append_eq_append_iff.1 heq
  · exact ⟨inside, hbefore, hys⟩
  · cases cut with
    | nil => exact ⟨[], by simpa using hxs.symm, by simpa using hafter.symm⟩
    | cons c cut =>
      have hlt := h.lt c (by simp [hafter])
      rw [hxs, byteLength_append, byteLength_cons] at hle
      omega

/-- An offset in the first part of a text has a character of this part behind it. -/
theorem exists_of_lt (h : EndsBy offset before after) (heq : xs ++ ys = before ++ after)
    (hlt : offset < byteLength xs) :
    ∃ c rest, xs = before ++ c :: rest ∧ after = c :: rest ++ ys := by
  obtain ⟨inside, hbefore, -⟩ | ⟨cut, hxs, hafter⟩ := List.append_eq_append_iff.1 heq
  · have hle := h.le
    rw [hbefore, byteLength_append] at hle
    omega
  · cases cut with
    | nil =>
      have hle := h.le
      rw [hxs, List.append_nil] at hlt
      omega
    | cons c cut => exact ⟨c, cut, hxs, hafter⟩

/-- The characters that end by an offset are counted.

**Proof sketch.** Induction on the characters in front.  Each fits below the offset, so it is
counted and the offset goes down by its size; the first one behind does not fit. -/
theorem charsBefore_eq (h : EndsBy offset before after) (count : Nat) :
    charsBefore count (before ++ after) offset = count + before.length := by
  induction before generalizing offset count with
  | nil =>
    cases after with
    | nil => rfl
    | cons c after =>
      have hlt : offset < c.utf8Size := by simpa using h.lt c rfl
      rw [List.nil_append, charsBefore, if_neg (by omega), List.length_nil, Nat.add_zero]
  | cons c before ih =>
    have hle := h.le
    rw [byteLength_cons] at hle
    have hrest : EndsBy (offset - c.utf8Size) before after := by
      refine ⟨by omega, fun d hd => ?_⟩
      have hd := h.lt d hd
      rw [byteLength_cons] at hd
      omega
    rw [List.cons_append, charsBefore, if_pos (by omega), ih hrest, List.length_cons]
    omega

end EndsBy

/-! ## Places -/

/-- The place of an offset in a list of lines: the lines in front, its own line, and the characters
`inside` of this line that end at or before it, with the `rest` of the line behind. -/
structure Place (lines : List Line) (offset : Nat) (front : List Line) (line : Line)
    (inside rest : List Char) : Prop where
  exists_back : ∃ back, lines = front ++ line :: back ∧ ∀ m ∈ back, offset < m.start
  front_le : ∀ m ∈ front, m.start ≤ offset
  start_le : line.start ≤ offset
  start_eq : line.start = byteLength (front.flatMap Line.chars)
  chars_eq : line.chars = inside ++ rest
  endsBy : EndsBy (offset - line.start) inside rest

/-- All offsets that stand between the same two parts of a text have one place.

**Proof sketch.** The line is the one that the first part ends in, or in front of.  This part begins
with the lines in front.  If no line follows, the rest of the text is the rest of the line.
Otherwise the line ends behind the first part, so the rest of the line is not empty and starts with
the character behind the first part, which ends before any other line starts. -/
theorem Cut.exists_place {lines : List Line} {before after : List Char}
    (h : Cut 0 (before ++ after) lines) :
    ∃ front line inside rest, before = front.flatMap Line.chars ++ inside ∧
      rest.head? = after.head? ∧
      ∀ offset, EndsBy offset before after → Place lines offset front line inside rest := by
  obtain ⟨front, line, back, rfl, hfront, hline, hend⟩ :=
    h.exists_line_at (Nat.zero_le (byteLength before))
  have hstart : line.start = byteLength (front.flatMap Line.chars) := by
    rw [h.start_eq, Nat.zero_add]
  have htext := h.flatMap_chars
  rw [List.flatMap_append, List.flatMap_cons] at htext
  obtain ⟨inside, rfl, hrest⟩ := (EndsBy.of_boundary before after).exists_of_le htext
    (hstart ▸ hline)
  rw [byteLength_append, ← hstart] at hend
  have hcut : ∃ rest, line.chars = inside ++ rest ∧ rest.head? = after.head? ∧
      (back ≠ [] → rest ≠ []) := by
    by_cases hback : back = []
    · rw [hback, List.flatMap_nil, List.append_nil] at hrest
      exact ⟨after, hrest, rfl, fun hne => absurd hback hne⟩
    · obtain ⟨c, rest, hchars, rfl⟩ := (EndsBy.of_boundary inside after).exists_of_lt hrest
        (Nat.lt_of_add_lt_add_left (hend hback))
      exact ⟨c :: rest, hchars, rfl, fun _ => List.cons_ne_nil c rest⟩
  obtain ⟨rest, hchars, hhead, hne⟩ := hcut
  refine ⟨front, line, inside, rest, rfl, hhead, fun offset hends => ?_⟩
  obtain ⟨hle, hlt⟩ := hends
  rw [byteLength_append, ← hstart] at hle hlt
  refine ⟨⟨back, rfl, fun m hm => ?_⟩, fun m hm => Nat.le_trans (hfront m hm) ?_, by omega, hstart,
    hchars, ⟨by omega, fun c hc => ?_⟩⟩
  · obtain ⟨c, ds, rfl⟩ := List.exists_cons_of_ne_nil (hne (List.ne_nil_of_mem hm))
    have hlt := hlt c (by rw [← hhead]; rfl)
    have hstart := h.end_le_start m hm
    rw [hchars, byteLength_append, byteLength_cons] at hstart
    omega
  · rwa [byteLength_append, ← hstart]
  · have hlt := hlt c (hhead ▸ hc)
    omega

/-- The lines that start at or before the offset are those in front and its own. -/
theorem Place.countP_eq {lines front : List Line} {offset : Nat} {line : Line}
    {inside rest : List Char} (h : Place lines offset front line inside rest) :
    (lines.map Line.start).countP (· ≤ offset) = front.length + 1 := by
  obtain ⟨back, rfl, hback⟩ := h.exists_back
  have hfront : (front.map Line.start).countP (· ≤ offset) = front.length := by
    rw [List.countP_eq_length.2 (by simpa using h.front_le), List.length_map]
  have hnone : (back.map Line.start).countP (· ≤ offset) = 0 :=
    List.countP_eq_zero.2 (by simpa using hback)
  rw [List.map_append, List.map_cons, List.countP_append, List.countP_cons, hfront, hnone]
  simp [h.start_le]

/-- Of the places of two characters, the later one is on a later line, or further to the right on
the same line.

**Proof sketch.** At least as many lines start at or before the later place.  If they are as many,
both places are on one line, and the characters in front of them are front parts of this line, of
which the longer one in bytes is the longer one in characters. -/
theorem Place.lex {lines front₁ front₂ : List Line} {offset₁ offset₂ : Nat} {line₁ line₂ : Line}
    {inside₁ inside₂ rest₁ rest₂ : List Char}
    (h₁ : Place lines offset₁ front₁ line₁ inside₁ rest₁)
    (h₂ : Place lines offset₂ front₂ line₂ inside₂ rest₂)
    (hlt : line₁.start + byteLength inside₁ < line₂.start + byteLength inside₂)
    (hle : offset₁ ≤ offset₂) :
    Prod.Lex (· < ·) (· < ·) (front₁.length + 1, inside₁.length + 1)
      (front₂.length + 1, inside₂.length + 1) := by
  have hlines : front₁.length + 1 ≤ front₂.length + 1 := by
    rw [← h₁.countP_eq, ← h₂.countP_eq]
    refine List.countP_mono_left fun start _ hstart => ?_
    simp only [decide_eq_true_eq] at hstart ⊢
    exact Nat.le_trans hstart hle
  rcases Nat.lt_or_eq_of_le hlines with hline | hline
  · exact .left _ _ hline
  · obtain ⟨back₁, hback₁, -⟩ := h₁.exists_back
    obtain ⟨back₂, hback₂, -⟩ := h₂.exists_back
    obtain ⟨-, hcons⟩ := List.append_inj (hback₁.symm.trans hback₂) (Nat.succ.inj hline)
    obtain ⟨rfl, -⟩ := List.cons.inj hcons
    rw [hline]
    refine .right _ (Nat.succ_lt_succ (Nat.lt_of_not_le fun hlength => ?_))
    have hprefix : inside₂ <+: inside₁ := List.prefix_of_prefix_length_le
      ⟨rest₂, h₂.chars_eq.symm⟩ ⟨rest₁, h₁.chars_eq.symm⟩ hlength
    obtain ⟨between, rfl⟩ := hprefix
    rw [byteLength_append] at hlt
    omega

/-- The character at a place, if it is no break, is in the body of the line. -/
theorem Place.getElem?_body {lines front : List Line} {offset : Nat} {line : Line}
    {inside rest : List Char} {c : Char} (h : Place lines offset front line inside rest)
    (hending : ∀ d ∈ line.ending, IsBreak d) (hhead : rest.head? = some c) (hc : ¬IsBreak c) :
    line.body[inside.length]? = some c := by
  obtain ⟨ds, rfl⟩ := List.head?_eq_some_iff.1 hhead
  have hchar : (line.body ++ line.ending)[inside.length]? = some c := by
    have hchars := h.chars_eq
    rw [Line.chars] at hchars
    simp [hchars]
  rw [List.getElem?_append] at hchar
  split at hchar
  · exact hchar
  · exact absurd (hending c (List.mem_of_getElem? hchar)) hc

/-! ## Positions -/

/-- The position of an offset in a text.  Its line is one more than the number of terminators that
end at or before it.  Its column is one more than the number of characters between the start of the
line, which is the start of the text or the end of the last of these terminators, and the start of
the character that the offset is in or in front of. -/
structure IsPosition (text : List Char) (offset line column : Nat) : Prop where
  line_eq : line = 1 + (terminatorEnds 0 text).countP (· ≤ offset)
  exists_slice : ∃ lead inside after, text = lead ++ inside ++ after ∧
    (0 :: terminatorEnds 0 text)[line - 1]? = some (byteLength lead) ∧
    EndsBy offset (lead ++ inside) after ∧ column = inside.length + 1

/-- No number of a position is greater than the length of the text in bytes by more than one. -/
theorem IsPosition.le {text : List Char} {offset line column : Nat}
    (h : IsPosition text offset line column) :
    line ≤ byteLength text + 1 ∧ column ≤ byteLength text + 1 := by
  obtain ⟨hline, lead, inside, after, htext, -, -, hcolumn⟩ := h
  constructor
  · have hcount := List.countP_le_length (p := (· ≤ offset)) (l := terminatorEnds 0 text)
    have hends := length_terminatorEnds_le 0 text
    have hlength := length_le_byteLength text
    omega
  · have hlength := length_le_byteLength inside
    rw [htext, byteLength_append, byteLength_append]
    omega

namespace Source

variable {name text : String} {s : Source}

/-- Lines are counted up to an offset. -/
theorem linesUpTo_eq (s : Source) (offset : Nat) :
    s.linesUpTo offset = (s.lines.toList.map Line.start).countP (· ≤ offset) := by
  suffices h : ∀ (lines : List Line) (n : Nat),
      lines.foldl (fun n l => if l.start ≤ offset then n + 1 else n) n =
        n + (lines.map Line.start).countP (· ≤ offset) by
    rw [linesUpTo, ← Array.foldl_toList, h, Nat.zero_add]
  intro lines
  induction lines with
  | nil => intro n; rfl
  | cons l lines ih =>
    intro n
    rw [List.foldl_cons, ih, List.map_cons, List.countP_cons]
    by_cases hl : l.start ≤ offset
    · simp only [hl, ↓reduceIte, decide_true]
      omega
    · simp [hl]

/-- The position of an offset is that of its place. -/
theorem position_eq {offset : Nat} {front : List Line} {line : Line} {inside rest : List Char}
    (hoffset : offset ≤ s.bytes) (h : Place s.lines.toList offset front line inside rest) :
    s.position offset = .ok (front.length + 1, inside.length + 1) := by
  obtain ⟨back, hlines, -⟩ := h.exists_back
  have hnumber : s.linesUpTo offset = front.length + 1 := by rw [linesUpTo_eq, h.countP_eq]
  have hline : s.lines.getD front.length default = line := by
    rw [Array.getD_eq_getD_getElem?, ← Array.getElem?_toList, hlines]
    simp
  unfold position
  rw [if_neg (Nat.not_lt.2 hoffset), hnumber]
  simp only [Nat.add_sub_cancel, hline, h.chars_eq, h.endsBy.charsBefore_eq, Nat.zero_add]

/-- Offsets between the same two parts of a text have one position, that of their place. -/
theorem exists_place_of_ofText (h : ofText name text = .ok s) {before after : List Char}
    (htext : text.toList = before ++ after) :
    ∃ front line inside rest, before = front.flatMap Line.chars ++ inside ∧
      rest.head? = after.head? ∧
      ∀ offset, EndsBy offset before after → offset ≤ byteLength text.toList →
        Place s.lines.toList offset front line inside rest ∧
          s.position offset = .ok (front.length + 1, inside.length + 1) := by
  obtain ⟨hbytes, hcut⟩ := cut_of_ofText h
  obtain ⟨front, line, inside, rest, hbefore, hhead, hplace⟩ := (htext ▸ hcut).exists_place
  refine ⟨front, line, inside, rest, hbefore, hhead, fun offset hends hoffset => ?_⟩
  exact ⟨hplace offset hends, position_eq (hbytes ▸ hoffset) (hplace offset hends)⟩

/-- The place at which a character starts or the text ends. -/
theorem exists_place_of_boundary (h : ofText name text = .ok s) {before after : List Char}
    (htext : text.toList = before ++ after) :
    ∃ front line inside rest, before = front.flatMap Line.chars ++ inside ∧
      rest.head? = after.head? ∧
      Place s.lines.toList (byteLength before) front line inside rest ∧
        s.position (byteLength before) = .ok (front.length + 1, inside.length + 1) := by
  obtain ⟨front, line, inside, rest, hbefore, hhead, hplace⟩ := exists_place_of_ofText h htext
  have hle : byteLength before ≤ byteLength text.toList := by
    rw [htext, byteLength_append]
    exact Nat.le_add_right _ _
  exact ⟨front, line, inside, rest, hbefore, hhead,
    hplace _ (.of_boundary before after) hle⟩

/-- Every offset up to the end of the text has a position, which is right. -/
theorem exists_isPosition (h : ofText name text = .ok s) {offset : Nat}
    (hoffset : offset ≤ byteLength text.toList) :
    ∃ line column, s.position offset = .ok (line, column) ∧
      IsPosition text.toList offset line column := by
  obtain ⟨-, hcut⟩ := cut_of_ofText h
  obtain ⟨before, after, htext, hends⟩ := exists_endsBy text.toList offset
  obtain ⟨front, line, inside, rest, rfl, -, hplace⟩ := exists_place_of_ofText h htext
  obtain ⟨hplace, hposition⟩ := hplace offset hends hoffset
  refine ⟨_, _, hposition, ?_, ?_⟩
  · rw [← hplace.countP_eq, hcut.map_start, List.countP_cons]
    simp [Nat.add_comm]
  · refine ⟨front.flatMap Line.chars, inside, after, htext, ?_, hends, rfl⟩
    obtain ⟨back, hlines, -⟩ := hplace.exists_back
    rw [← hcut.map_start, hlines, ← hplace.start_eq]
    simp

/-- An offset in a character has the position of the character. -/
theorem position_eq_of_inside (h : ofText name text = .ok s) {before after : List Char} {c : Char}
    {offset : Nat} (htext : text.toList = before ++ c :: after) (hle : byteLength before ≤ offset)
    (hlt : offset < byteLength before + c.utf8Size) :
    s.position offset = s.position (byteLength before) := by
  have hends : EndsBy offset before (c :: after) := ⟨hle, by simpa using hlt⟩
  have hlength : byteLength text.toList = byteLength before + (c.utf8Size + byteLength after) := by
    rw [htext, byteLength_append, byteLength_cons]
  obtain ⟨front, line, inside, rest, -, -, hplace⟩ := exists_place_of_ofText h htext
  rw [(hplace offset hends (by omega)).2,
    (hplace (byteLength before) (.of_boundary before (c :: after)) (by omega)).2]

/-- Of two places between characters, the later one has the greater position. -/
theorem exists_position_lex (h : ofText name text = .ok s)
    {before₁ after₁ before₂ after₂ : List Char} (htext₁ : text.toList = before₁ ++ after₁)
    (htext₂ : text.toList = before₂ ++ after₂) (hlt : byteLength before₁ < byteLength before₂) :
    ∃ p₁ p₂, s.position (byteLength before₁) = .ok p₁ ∧ s.position (byteLength before₂) = .ok p₂ ∧
      Prod.Lex (· < ·) (· < ·) p₁ p₂ := by
  obtain ⟨front₁, line₁, inside₁, rest₁, rfl, -, hplace₁, hposition₁⟩ :=
    exists_place_of_boundary h htext₁
  obtain ⟨front₂, line₂, inside₂, rest₂, rfl, -, hplace₂, hposition₂⟩ :=
    exists_place_of_boundary h htext₂
  refine ⟨_, _, hposition₁, hposition₂, hplace₁.lex hplace₂ ?_ (Nat.le_of_lt hlt)⟩
  rwa [hplace₁.start_eq, hplace₂.start_eq, ← byteLength_append, ← byteLength_append]

/-- A character that is no break is found at its position. -/
theorem exists_char_at (h : ofText name text = .ok s) {before after : List Char} {c : Char}
    (htext : text.toList = before ++ c :: after) (hc : ¬IsBreak c) :
    ∃ line column l, s.position (byteLength before) = .ok (line, column) ∧
      s.line? line = some l ∧ 1 ≤ column ∧ l.toList[column - 1]? = some c := by
  obtain ⟨front, line, inside, rest, -, hhead, hplace, hposition⟩ :=
    exists_place_of_boundary h htext
  obtain ⟨back, hlines, -⟩ := hplace.exists_back
  have hending : ∀ d ∈ line.ending, IsBreak d :=
    (cut_of_ofText h).2.isBreak_ending line (by simp [hlines])
  refine ⟨_, _, String.ofList line.body, hposition, ?_, Nat.le_add_left _ _, ?_⟩
  · rw [line?_succ, hlines]
    simp
  · simpa using hplace.getElem?_body hending hhead hc

/-- Positions are right: every offset has one, of numbers that are no greater than `maxBytes`, the
offsets in a character have the same, later characters have greater positions, and a character that
ends no line is found at its position. -/
structure Translates (s : Source) (text : String) : Prop where
  exists_position : ∀ offset ≤ text.utf8ByteSize, ∃ line column,
    s.position offset = .ok (line, column) ∧ IsPosition text.toList offset line column ∧
      line ≤ maxBytes ∧ column ≤ maxBytes
  position_inside : ∀ before c after offset, text.toList = before ++ c :: after →
    byteLength before ≤ offset → offset < byteLength before + c.utf8Size →
    s.position offset = s.position (byteLength before)
  position_lex : ∀ before₁ after₁ before₂ after₂, text.toList = before₁ ++ after₁ →
    text.toList = before₂ ++ after₂ → byteLength before₁ < byteLength before₂ →
    ∃ p₁ p₂, s.position (byteLength before₁) = .ok p₁ ∧ s.position (byteLength before₂) = .ok p₂ ∧
      Prod.Lex (· < ·) (· < ·) p₁ p₂
  char_at : ∀ before c after, text.toList = before ++ c :: after → ¬IsBreak c →
    ∃ line column l, s.position (byteLength before) = .ok (line, column) ∧
      s.line? line = some l ∧ 1 ≤ column ∧ l.toList[column - 1]? = some c

/-- In a text of fewer than `maxBytes` bytes that is taken in, positions are right. -/
theorem position_correct (hsize : text.utf8ByteSize < maxBytes)
    (h : ofText name text = .ok s) : s.Translates text := by
  refine ⟨fun offset hoffset => ?_, fun before c after offset htext hle hlt => ?_,
    fun before₁ after₁ before₂ after₂ htext₁ htext₂ hlt => ?_, fun before c after htext hc => ?_⟩
  · rw [utf8ByteSize_eq_byteLength] at hsize hoffset
    obtain ⟨line, column, hposition, hright⟩ := exists_isPosition h hoffset
    obtain ⟨hline, hcolumn⟩ := hright.le
    exact ⟨line, column, hposition, hright, Nat.le_trans hline hsize, Nat.le_trans hcolumn hsize⟩
  · exact position_eq_of_inside h htext hle hlt
  · exact exists_position_lex h htext₁ htext₂ hlt
  · exact exists_char_at h htext hc

/-- A text with characters of one, two and three bytes, with terminators of one and two. -/
def mixedText : String := "é\r\n日\rx"

/-- Offset 3 is between the carriage return and the line feed, and offset 6 is inside the character
of three bytes. -/
theorem position_mixedText :
    mixedText.utf8ByteSize < maxBytes ∧ ∃ s, ofText "mixed.sol" mixedText = .ok s ∧
      s.Translates mixedText ∧ s.position 3 = .ok (1, 3) ∧ s.position 6 = .ok (2, 1) ∧
      s.position 9 = .ok (3, 2) := by
  have hsize : mixedText.utf8ByteSize < maxBytes := by decide +kernel
  have hs : ofText "mixed.sol" mixedText = .ok ⟨"mixed.sol", 9,
      #[⟨0, ['é'], ['\r', '\n']⟩, ⟨4, ['日'], ['\r']⟩, ⟨8, ['x'], []⟩]⟩ := rfl
  exact ⟨hsize, _, hs, position_correct hsize hs, rfl, rfl, rfl⟩

end Source

end ContractIR
