import ContractIR.Proofs.Source.Lines

/-!
# Lines partition the text

The lines of a source are numbered from one without gaps, and the text is the lines with one
terminator between every two of them.  A carriage return is a terminator of its own only where no
line feed follows: a line feed in front of a carriage return and a second carriage return are each
the end of one more line, which is empty.

## Main definitions

* `ContractIR.weave` — lines with terminators between them.
* `ContractIR.Interleaves` — lines and terminators that make up a text.
* `ContractIR.Source.Partitions` — the lines of a source partition a text.

## Main results

* `ContractIR.Cut.interleaves` — the bodies and the terminators of lines make up the text.
* `ContractIR.Source.partitions_of_ofText` — the lines of a source partition its text.
-/

set_option autoImplicit false

namespace ContractIR

/-- Lines, the first one in front, with terminators between them as long as there are any. -/
def weave : List String → List String → String
  | [], _ => ""
  | line :: lines, [] => line ++ weave lines []
  | line :: lines, terminator :: terminators => line ++ (terminator ++ weave lines terminators)

/-- Lines and terminators make up a text: there is a terminator between every two lines, and one
that is a carriage return is not followed by a line feed. -/
structure Interleaves (lines terminators : List String) (text : String) : Prop where
  length_eq : lines.length = terminators.length + 1
  weave_eq : weave lines terminators = text
  isTerminator : ∀ t ∈ terminators, t = "\n" ∨ t = "\r\n" ∨ t = "\r"
  lone_return : ∀ i, terminators[i]? = some "\r" →
    (weave (lines.drop (i + 1)) (terminators.drop (i + 1))).toList.head? ≠ some '\n'

/-- There are three terminators. -/
theorem Terminates.ofList_eq {ending rest : List Char} (h : Terminates ending rest) :
    String.ofList ending = "\n" ∨ String.ofList ending = "\r\n" ∨ String.ofList ending = "\r" := by
  cases h with
  | feed => exact .inl rfl
  | returnFeed => exact .inr (.inl rfl)
  | loneReturn => exact .inr (.inr rfl)

/-- No line feed follows a terminator that is a carriage return. -/
theorem Terminates.head?_ne {ending rest : List Char} (h : Terminates ending rest)
    (hreturn : String.ofList ending = "\r") : rest.head? ≠ some '\n' := by
  have hending : ending = ['\r'] := by simpa using congrArg String.toList hreturn
  cases h with
  | feed => simp at hending
  | returnFeed => simp at hending
  | loneReturn hrest => exact hrest

/-- The bodies of the lines, and the terminators of all but the last one, make up the text. -/
theorem Cut.interleaves {start : Nat} {cs : List Char} {lines : List Line}
    (h : Cut start cs lines) :
    Interleaves (lines.map fun l => String.ofList l.body)
      (lines.map fun l => String.ofList l.ending).dropLast (String.ofList cs) := by
  induction h with
  | last => exact ⟨rfl, by simp [weave], by simp, by simp⟩
  | ended _ hending hrest ih =>
    rw [List.map_cons, List.map_cons,
      List.dropLast_cons_of_ne_nil (mt List.map_eq_nil_iff.1 hrest.ne_nil)]
    constructor
    · rw [List.length_cons, List.length_cons, ih.length_eq]
    · rw [weave, ih.weave_eq, ← String.ofList_append, ← String.ofList_append, List.append_assoc]
    · exact List.forall_mem_cons.2 ⟨hending.ofList_eq, ih.isTerminator⟩
    · rintro (_ | i) hreturn
      · have hrest := hending.head?_ne (by simpa using hreturn)
        simpa [ih.weave_eq] using hrest
      · exact ih.lone_return i (by simpa using hreturn)

namespace Source

variable {name text : String} {s : Source}

/-- The lines of a source partition a text: they are numbered from one, there is at least one, no
line has a break, and the text is made up of the lines and the terminators between them. -/
structure Partitions (s : Source) (text : String) : Prop where
  one_le : 1 ≤ s.lineCount
  isSome_line? : ∀ i, (s.line? i).isSome = true ↔ 1 ≤ i ∧ i ≤ s.lineCount
  not_break : ∀ i line, s.line? i = some line → ∀ c ∈ line.toList, c ≠ '\r' ∧ c ≠ '\n'
  exists_interleaves : ∃ lines terminators, (∀ i, lines[i]? = s.line? (i + 1)) ∧
    Interleaves lines terminators text

/-- The lines of a source partition the text that was taken in.

**Proof sketch.** The lines of an accepted text are a cutting of it, and each field reads one
property off the cutting: it is not empty, line numbers index it, its bodies hold no break, and
its lines with their terminators make up the text. -/
theorem partitions_of_ofText (h : ofText name text = .ok s) : s.Partitions text := by
  obtain ⟨-, hcut⟩ := cut_of_ofText h
  have hcount : s.lineCount = s.lines.toList.length := rfl
  constructor
  · rw [hcount]
    exact List.length_pos_iff.2 hcut.ne_nil
  · rintro (_ | i)
    · simp [line?]
    · have hlt : (s.line? (i + 1)).isSome = true ↔ i < s.lines.toList.length := by
        simp [line?_succ]
      rw [hlt, hcount]
      omega
  · rintro (_ | i) line hline c hc
    · cases hline
    · rw [line?_succ] at hline
      obtain ⟨l, hl, rfl⟩ := Option.map_eq_some_iff.1 hline
      rw [String.toList_ofList] at hc
      exact not_or.1 (hcut.not_isBreak l (List.mem_of_getElem? hl) c hc)
  · refine ⟨_, _, fun i => ?_, by simpa using hcut.interleaves⟩
    rw [line?_succ, List.getElem?_map]

/-- The first break is a terminator alone, the next two are one terminator, and the last one is in
front of an empty last line. -/
theorem partitions_breaks :
    ∃ s, ofText "breaks.sol" "a\r\r\n\n" = .ok s ∧ s.Partitions "a\r\r\n\n" ∧
      s.lineCount = 4 := by
  have hs : ofText "breaks.sol" "a\r\r\n\n" = .ok ⟨"breaks.sol", 5,
      #[⟨0, ['a'], ['\r']⟩, ⟨2, [], ['\r', '\n']⟩, ⟨4, [], ['\n']⟩, ⟨5, [], []⟩]⟩ := rfl
  exact ⟨_, hs, partitions_of_ofText hs, rfl⟩

end Source

end ContractIR
