import ContractIR.Proofs.Source.Lines

/-!
# The limit on lines

While a text is read, the lines that have begun are counted before every character, and the text is
refused if there are already as many as the limit allows.  Reading begins the last of these lines
with the terminator before it, so what decides is whether anything follows: a text with as many
lines as the limit is taken in if its last line is empty, and refused otherwise.  Texts with more
lines are refused, as they must be, for something follows where the last line that is allowed
starts: at least its terminator.

## Main definitions

* `ContractIR.EndsInBreak` — the last character of a text ends a line.
* `ContractIR.repeatText` — a text over and over.

## Main results

* `ContractIR.Cut.endsInBreak_iff` — a text ends in a break if its last line is empty.
* `ContractIR.Cut.exists_getElem?_lt_iff` — which texts go on where a given line starts.
* `ContractIR.Source.tooManyLines_iff` — which texts are refused for their lines.
* `ContractIR.Source.crowdedText_refused` — a text with as many lines as the limit is refused.
-/

set_option autoImplicit false

namespace ContractIR

/-- The last character of a text is a carriage return or a line feed. -/
def EndsInBreak (cs : List Char) : Prop := ∃ c ∈ cs.getLast?, IsBreak c

namespace Cut

variable {start : Nat} {cs : List Char}

/-- If there is more than one line, a text ends in a break exactly if its last line is empty.

**Proof sketch.** In front of the last line stands the terminator of the line before it.  If the
last line is empty, the text ends with that terminator; otherwise it ends with a character of the
last line, which is no break. -/
theorem endsInBreak_iff {front : List Line} {line : Line} (h : Cut start cs (front ++ [line]))
    (hfront : front ≠ []) : EndsInBreak cs ↔ line.body = [] := by
  -- In front of the last line stands the terminator of the line before it.
  obtain ⟨front, before, rfl⟩ := (List.eq_nil_or_concat front).resolve_left hfront
  have hsplit : front.concat before ++ [line] = front ++ [before, line] := by simp
  have htext := (hsplit ▸ h).flatMap_chars
  have hdrop := (hsplit ▸ h).drop (List.cons_ne_nil before [line])
  obtain ⟨-, -, ⟨hnil, -⟩ | ⟨hending, hlast⟩⟩ := hdrop.cons_inv
  · cases hnil
  obtain ⟨-, hbody, ⟨-, hnone⟩ | ⟨-, hrest⟩⟩ := hlast.cons_inv
  · have hcs : cs = front.flatMap Line.chars ++ before.body ++ before.ending ++ line.body := by
      simp [← htext, Line.chars, hnone]
    by_cases hempty : line.body = []
    · refine iff_of_true ⟨before.ending.getLast hending.ne_nil, ?_, ?_⟩ hempty
      · simp [hcs, hempty, List.getLast?_eq_some_getLast hending.ne_nil]
      · exact hending.isBreak _ (List.getLast_mem hending.ne_nil)
    · refine iff_of_false ?_ hempty
      rintro ⟨c, hc, hbreak⟩
      rw [hcs, List.getLast?_append, List.getLast?_eq_some_getLast hempty] at hc
      obtain rfl := Option.some.inj hc
      exact hbody _ (List.getLast_mem hempty) hbreak
  · exact absurd rfl hrest.ne_nil

/-- A text goes on where line `n` starts, counted from zero, if it has more lines than this one and
those in front, or just these and no break at the end.

**Proof sketch.** The lines are split at line `n`.  If lines follow, then its terminator is there.
If none follows, the text goes on if the body of the line is not empty. -/
theorem exists_getElem?_lt_iff {lines : List Line} (h : Cut 0 cs lines) {n : Nat} (hn : 0 < n) :
    (∃ l, lines[n]? = some l ∧ l.start < byteLength cs) ↔
      n + 1 < lines.length ∨ lines.length = n + 1 ∧ ¬EndsInBreak cs := by
  by_cases hlength : n < lines.length
  · obtain ⟨front, line, back, rfl, rfl⟩ :
        ∃ front line back, lines = front ++ line :: back ∧ front.length = n :=
      ⟨lines.take n, lines[n], lines.drop (n + 1), by simp, by simp; omega⟩
    have hget : (front ++ line :: back)[front.length]? = some line := by simp
    have hstart := h.start_eq
    have hbytes := congrArg byteLength h.flatMap_chars
    rw [List.flatMap_append, List.flatMap_cons, Line.chars, byteLength_append, byteLength_append,
      byteLength_append] at hbytes
    rw [hget, List.length_append, List.length_cons]
    obtain ⟨-, -, ⟨rfl, hending⟩ | ⟨hending, hrest⟩⟩ := (h.drop (List.cons_ne_nil _ _)).cons_inv
    · rw [h.endsInBreak_iff (List.length_pos_iff.1 hn)]
      rw [hending, List.flatMap_nil, byteLength_nil] at hbytes
      constructor
      · rintro ⟨l, hl, hlt⟩
        obtain rfl := Option.some.inj hl
        refine .inr ⟨rfl, fun hempty => ?_⟩
        rw [hempty, byteLength_nil] at hbytes
        omega
      · rintro (hmore | ⟨-, hbody⟩)
        · rw [List.length_nil] at hmore
          omega
        · have hpos := byteLength_pos hbody
          exact ⟨line, rfl, by omega⟩
    · have hpos := byteLength_pos hending.ne_nil
      have hback := List.length_pos_iff.2 hrest.ne_nil
      exact iff_of_true ⟨line, rfl, by omega⟩ (.inl (by omega))
  · refine iff_of_false ?_ (by omega)
    rintro ⟨l, hl, -⟩
    exact hlength (List.getElem?_eq_some_iff.1 hl).1

end Cut

/-! ## Repeated texts -/

/-- A text over and over. -/
def repeatText (unit : String) (n : Nat) : String :=
  String.ofList (List.replicate n unit.toList).flatten

/-- Without carriage returns, terminators are line feeds. -/
theorem length_terminatorEnds {cs : List Char} (h : '\r' ∉ cs) (offset : Nat) :
    (terminatorEnds offset cs).length = cs.count '\n' := by
  induction cs generalizing offset with
  | nil => rfl
  | cons c cs ih =>
    obtain ⟨hc, hcs⟩ := not_or.1 (mt List.mem_cons.2 h)
    rw [terminatorEnds, List.count_cons]
    by_cases hfeed : c = '\n'
    · simp [hfeed, ih hcs]
    · simp [hfeed, Ne.symm hc, ih hcs]

/-- The lines of a repeated text. -/
theorem lineTotal_repeatText {unit : String} (h : '\r' ∉ unit.toList) (n : Nat) :
    lineTotal (repeatText unit n) = 1 + n * unit.toList.count '\n' := by
  have hno : '\r' ∉ (List.replicate n unit.toList).flatten := by
    simp [h]
  rw [lineTotal, repeatText, String.toList_ofList, length_terminatorEnds hno, List.count_flatten,
    List.map_replicate, List.sum_replicate_nat]

/-- The length of a repeated text. -/
theorem utf8ByteSize_repeatText (unit : String) (n : Nat) :
    (repeatText unit n).utf8ByteSize = n * unit.utf8ByteSize := by
  rw [utf8ByteSize_eq_byteLength, utf8ByteSize_eq_byteLength, repeatText, String.toList_ofList]
  induction n with
  | zero => simp
  | succ n ih =>
    rw [List.replicate_succ, List.flatten_cons, byteLength_append, ih, Nat.succ_mul, Nat.add_comm]

/-- A repeated text ends as the text that is repeated. -/
theorem endsInBreak_repeatText {unit : String} (hunit : unit ≠ "") (n : Nat) :
    EndsInBreak (repeatText unit (n + 1)).toList ↔ EndsInBreak unit.toList := by
  have hne : unit.toList ≠ [] := mt String.toList_eq_nil_iff.1 hunit
  rw [EndsInBreak, EndsInBreak, repeatText, String.toList_ofList, List.replicate_succ',
    List.flatten_append, List.flatten_singleton, List.getLast?_append,
    List.getLast?_eq_some_getLast hne, Option.some_or]

namespace Source

variable {name text : String}

/-- A text that is not too large is refused for its lines or for nothing. -/
theorem ofText_eq (hsize : text.utf8ByteSize ≤ maxBytes) :
    ofText name text =
      if overflows (splitLines text.toList) text.utf8ByteSize then .error (.tooManyLines maxLines)
      else .ok ⟨name, text.utf8ByteSize, splitLines text.toList⟩ := by
  unfold ofText
  simp only
  rw [if_neg (Nat.not_lt.2 hsize)]

/-- A text has too many lines if it has more than the limit, or as many and no break at the end. -/
theorem overflows_iff (text : String) :
    overflows (splitLines text.toList) text.utf8ByteSize = true ↔
      maxLines < lineTotal text ∨ lineTotal text = maxLines ∧ ¬EndsInBreak text.toList := by
  have hcut := cut_splitLines text.toList
  have hgo : overflows (splitLines text.toList) text.utf8ByteSize = true ↔
      ∃ l, (splitLines text.toList).toList[maxLines - 1]? = some l ∧
        l.start < byteLength text.toList := by
    rw [overflows, utf8ByteSize_eq_byteLength, Array.getElem?_toList]
    cases (splitLines text.toList)[maxLines - 1]? <;> simp
  rw [hgo, hcut.exists_getElem?_lt_iff (by decide), hcut.length_eq]
  rfl

/-- Of the texts that are not too large, those are refused for their lines that have more than the
limit, and those that have as many and no break at the end; all others are taken in with all their
lines. -/
theorem tooManyLines_iff (hsize : text.utf8ByteSize ≤ maxBytes) :
    ((∃ n, ofText name text = .error (.tooManyLines n)) ↔
      maxLines < lineTotal text ∨ lineTotal text = maxLines ∧ ¬EndsInBreak text.toList) ∧
    ((∃ s, ofText name text = .ok s ∧ s.lineCount = lineTotal text) ↔
      ¬(maxLines < lineTotal text ∨ lineTotal text = maxLines ∧ ¬EndsInBreak text.toList)) := by
  rw [← overflows_iff]
  by_cases hover : overflows (splitLines text.toList) text.utf8ByteSize = true
  · have h : ofText name text = .error (.tooManyLines maxLines) := by
      rw [ofText_eq hsize, if_pos hover]
    exact ⟨iff_of_true ⟨maxLines, h⟩ hover, iff_of_false (by simp [h]) (not_not_intro hover)⟩
  · have h : ofText name text = .ok ⟨name, text.utf8ByteSize, splitLines text.toList⟩ := by
      rw [ofText_eq hsize, if_neg hover]
    exact ⟨iff_of_false (by simp [h]) hover, iff_of_true ⟨_, h, lineCount_of_ofText h⟩ hover⟩

/-- A text of as many lines as the limit allows, of which the last one is empty, is taken in. -/
theorem brimfulText_accepted :
    (repeatText "x\n" 999999).utf8ByteSize ≤ maxBytes ∧
      ∃ s, ofText "brimful.sol" (repeatText "x\n" 999999) = .ok s ∧ s.lineCount = maxLines := by
  have hsize : (repeatText "x\n" 999999).utf8ByteSize ≤ maxBytes := by
    rw [utf8ByteSize_repeatText]
    decide
  have htotal : lineTotal (repeatText "x\n" 999999) = maxLines := by
    rw [lineTotal_repeatText (by decide)]
    decide
  refine ⟨hsize, htotal ▸ (tooManyLines_iff hsize).2.2 ?_⟩
  rintro (hmore | ⟨-, hends⟩)
  · rw [htotal] at hmore
    exact Nat.lt_irrefl _ hmore
  · exact hends ((endsInBreak_repeatText (by decide) 999998).2 ⟨'\n', rfl, .inr rfl⟩)

/-- A text of as many lines as the limit allows, none of them empty but the first, is refused,
although it does not have more lines than the limit.

**Proof sketch.** Size, number of lines and last character come from the lemmas about repeated
texts.  By `overflows_iff` the text is refused for its last line, whereas it has exactly
`maxLines` lines. -/
theorem crowdedText_refused :
    (repeatText "\nx" 999999).utf8ByteSize ≤ maxBytes ∧
      ¬((∃ n, ofText "crowded.sol" (repeatText "\nx" 999999) = .error (.tooManyLines n)) ↔
        maxLines < lineTotal (repeatText "\nx" 999999)) := by
  have hsize : (repeatText "\nx" 999999).utf8ByteSize ≤ maxBytes := by
    rw [utf8ByteSize_repeatText]
    decide
  have htotal : lineTotal (repeatText "\nx" 999999) = maxLines := by
    rw [lineTotal_repeatText (by decide)]
    decide
  have hends : ¬EndsInBreak (repeatText "\nx" 999999).toList := by
    rw [endsInBreak_repeatText (by decide) 999998]
    rintro ⟨c, hc, hbreak⟩
    obtain rfl : 'x' = c := Option.some.inj hc
    exact absurd hbreak (by decide)
  refine ⟨hsize, fun h => ?_⟩
  have hmore := h.1 ⟨maxLines, by
    rw [ofText_eq hsize, if_pos ((overflows_iff _).2 (.inr ⟨htotal, hends⟩))]⟩
  rw [htotal] at hmore
  exact Nat.lt_irrefl _ hmore

end Source

end ContractIR
