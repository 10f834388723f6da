import ContractIR.Proofs.Source.Limit
import Mathlib.Data.List.DropRight

/-!
# Scanning a text

Where lines start can be found in one pass over the bytes of a text: a line begins behind every
terminator that is met.  In front of every byte, or of two bytes that are one terminator, the pass
counts the lines that have begun, and it gives up if there are as many as the limit allows.  The
text of a line is what stands between its start and that of the next line, without the carriage
returns and line feeds at the end.

Both ways to treat a text agree: sources look at the one line whose number is the limit when all
lines are there, and keep the characters of each line apart from its terminator.

## Main definitions

* `ContractIR.scanStarts` — where lines start, found byte by byte and within a limit.
* `ContractIR.IsSlice` — the characters between two byte offsets.

## Main results

* `ContractIR.Cut.scanStarts_eq` — what the pass finds, and when it gives up.
* `ContractIR.Source.ofText_eq_scanStarts` — a text is taken in with the lines that the pass finds,
  and refused where the pass gives up.
* `ContractIR.Source.line?_eq_some_iff` — the text of a line is the slice at its start, trimmed.
-/

set_option autoImplicit false

namespace ContractIR

/-! ## Bytes -/

/-- The bytes of characters in UTF-8. -/
def utf8Bytes (cs : List Char) : List UInt8 := cs.flatMap String.utf8EncodeChar

/-- The bytes of a text are those of its characters. -/
theorem toUTF8_toList (text : String) : text.toUTF8.data.toList = utf8Bytes text.toList := by
  rw [String.toUTF8_eq_toByteArray, ← String.utf8Encode_toList, List.utf8Encode]
  simp [utf8Bytes]

/-- Characters have as many bytes as their length says. -/
theorem length_utf8Bytes (cs : List Char) : (utf8Bytes cs).length = byteLength cs := by
  induction cs with
  | nil => rfl
  | cons c cs ih =>
    rw [utf8Bytes] at ih ⊢
    rw [List.flatMap_cons, List.length_append, ih, String.length_utf8EncodeChar, byteLength_cons]

/-- The bytes of two parts. -/
theorem utf8Bytes_append (cs ds : List Char) :
    utf8Bytes (cs ++ ds) = utf8Bytes cs ++ utf8Bytes ds :=
  List.flatMap_append

/-- Characters are told apart by their bytes. -/
theorem utf8Bytes_injective {cs ds : List Char} (h : utf8Bytes cs = utf8Bytes ds) : cs = ds := by
  have hbytes : (String.ofList cs).toByteArray = (String.ofList ds).toByteArray := by
    rw [String.toByteArray_ofList, String.toByteArray_ofList, List.utf8Encode, List.utf8Encode]
    exact congrArg List.toByteArray h
  simpa using congrArg String.toList (String.toByteArray_inj.1 hbytes)

/-- No byte of another character is a carriage return or a line feed.

**Proof sketch.** By the number of bytes.  One byte is the character itself, which is no break;
in a longer encoding all bytes are at least 128. -/
theorem ne_of_mem_utf8EncodeChar {c : Char} (hc : ¬IsBreak c) {b : UInt8}
    (hb : b ∈ String.utf8EncodeChar c) : b ≠ 13 ∧ b ≠ 10 := by
  have hreturn : c.val.toNat ≠ 13 := fun h => hc (.inl (Char.ext (UInt32.toNat_inj.1 h)))
  have hfeed : c.val.toNat ≠ 10 := fun h => hc (.inr (Char.ext (UInt32.toNat_inj.1 h)))
  suffices h : b.toNat ≠ 13 ∧ b.toNat ≠ 10 by
    exact ⟨fun heq => h.1 (heq ▸ rfl), fun heq => h.2 (heq ▸ rfl)⟩
  unfold String.utf8EncodeChar at hb
  dsimp only at hb
  generalize c.val.toNat = v at hb hreturn hfeed
  split at hb
  · obtain rfl := List.mem_singleton.1 hb
    rw [UInt8.toNat_ofNat']
    omega
  · -- all bytes of a longer character have their highest bit set
    split at hb
    · simp only [List.mem_cons, List.not_mem_nil, or_false] at hb
      rcases hb with rfl | rfl <;> rw [UInt8.toNat_ofNat'] <;> omega
    · split at hb
      · simp only [List.mem_cons, List.not_mem_nil, or_false] at hb
        rcases hb with rfl | rfl | rfl <;> rw [UInt8.toNat_ofNat'] <;> omega
      · simp only [List.mem_cons, List.not_mem_nil, or_false] at hb
        rcases hb with rfl | rfl | rfl | rfl <;> rw [UInt8.toNat_ofNat'] <;> omega

/-! ## Starts of lines -/

/-- Where lines start, found in one pass over bytes: `here` is the offset of the next byte, and
`begun` are the starts that were found before.  The pass gives up in front of a byte if as many
lines as `limit` have begun, and says how many. -/
def scanStarts (limit here : Nat) (begun : Array Nat) : List UInt8 → Except Nat (Array Nat)
  | [] => .ok begun
  | 13 :: 10 :: bytes =>
    if limit ≤ begun.size then .error begun.size
    else scanStarts limit (here + 2) (begun.push (here + 2)) bytes
  | b :: bytes =>
    if limit ≤ begun.size then .error begun.size
    else if b = 13 ∨ b = 10 then scanStarts limit (here + 1) (begun.push (here + 1)) bytes
    else scanStarts limit (here + 1) begun bytes

/-- The pass gives up in front of any byte if as many lines as the limit have begun. -/
theorem scanStarts_eq_error {limit here : Nat} {begun : Array Nat} {bytes : List UInt8}
    (hne : bytes ≠ []) (hlimit : limit ≤ begun.size) :
    scanStarts limit here begun bytes = .error begun.size := by
  fun_cases scanStarts limit here begun bytes <;> simp_all

/-- Behind bytes that end no line the pass goes on with what it had found. -/
theorem scanStarts_append {limit here : Nat} {begun : Array Nat} {body : List UInt8}
    (hbody : ∀ b ∈ body, b ≠ 13 ∧ b ≠ 10) (hlimit : begun.size < limit) (bytes : List UInt8) :
    scanStarts limit here begun (body ++ bytes) =
      scanStarts limit (here + body.length) begun bytes := by
  induction body generalizing here with
  | nil => rfl
  | cons b body ih =>
    obtain ⟨⟨hreturn, hfeed⟩, hrest⟩ := List.forall_mem_cons.1 hbody
    rw [List.cons_append, scanStarts, if_neg (Nat.not_le.2 hlimit),
      if_neg (by simp [hreturn, hfeed]), ih hrest, List.length_cons, Nat.add_right_comm,
      Nat.add_assoc]
    rintro bytes rfl
    exact absurd rfl hreturn

/-- The bytes of characters start with a line feed only if the characters do. -/
theorem head?_eq_of_utf8Bytes {cs : List Char} {bytes : List UInt8}
    (h : utf8Bytes cs = 10 :: bytes) : cs.head? = some '\n' := by
  cases cs with
  | nil => cases h
  | cons c cs =>
    have hmem : (10 : UInt8) ∈ String.utf8EncodeChar c := by
      rw [utf8Bytes, List.flatMap_cons] at h
      rcases List.append_eq_cons_iff.1 h with ⟨hnil, -⟩ | ⟨rest, hc, -⟩
      · exact absurd hnil String.utf8EncodeChar_ne_nil
      · rw [hc]
        exact List.mem_cons_self
    by_cases hc : IsBreak c
    · rcases hc with rfl | rfl
      · exact absurd hmem (by decide)
      · rfl
    · exact absurd rfl (ne_of_mem_utf8EncodeChar hc hmem).2

/-- Behind a terminator one more line has begun.

**Proof sketch.** By the three terminators.  A lone carriage return is not followed by a line
feed, so its byte ends the line by itself. -/
theorem Terminates.scanStarts_append {ending rest : List Char} (h : Terminates ending rest)
    {limit here : Nat} {begun : Array Nat} (hlimit : begun.size < limit) :
    scanStarts limit here begun (utf8Bytes (ending ++ rest)) =
      scanStarts limit (here + byteLength ending) (begun.push (here + byteLength ending))
        (utf8Bytes rest) := by
  rw [utf8Bytes_append]
  cases h with
  | feed =>
    have hfeed : utf8Bytes ['\n'] = [10] := by decide
    rw [hfeed, List.singleton_append, scanStarts, if_neg (Nat.not_le.2 hlimit), if_pos (.inr rfl)]
    · rfl
    · nofun
  | returnFeed =>
    have hboth : utf8Bytes ['\r', '\n'] = [13, 10] := by decide
    rw [hboth, List.cons_append, List.singleton_append, scanStarts, if_neg (Nat.not_le.2 hlimit)]
    rfl
  | loneReturn hrest =>
    have hreturn : utf8Bytes ['\r'] = [13] := by decide
    rw [hreturn, List.singleton_append, scanStarts, if_neg (Nat.not_le.2 hlimit), if_pos (.inl rfl)]
    · rfl
    · rintro bytes - heq
      exact hrest (head?_eq_of_utf8Bytes heq)

/-- Where a line starts that is the last one allowed, the pass gives up unless nothing is left.

**Proof sketch.** If no text is left, no bytes are, and there is one line.  Otherwise the pass
sees a byte with its array full and gives up, and the line starts in front of the end. -/
theorem Cut.scanStarts_of_full {start : Nat} {cs : List Char} {lines : List Line}
    (h : Cut start cs lines) {limit : Nat} {begun : Array Nat} (hlimit : begun.size = limit) :
    scanStarts limit start begun (utf8Bytes cs) =
      if (lines[0]?).any fun l => decide (l.start < start + byteLength cs) then .error limit
      else .ok (begun ++ (lines.tail.map Line.start).toArray) := by
  obtain ⟨line, back, rfl⟩ := List.exists_cons_of_ne_nil h.ne_nil
  have hstart : line.start = start := h.cons_inv.1
  rw [List.getElem?_cons_zero, Option.any_some, hstart]
  by_cases hcs : cs = []
  · obtain ⟨-, -, ⟨rfl, -⟩ | ⟨hending, -⟩⟩ := h.cons_inv
    · simp [hcs, utf8Bytes, scanStarts]
    · -- a terminator would stand in the text
      have htext := h.flatMap_chars
      rw [hcs, List.flatMap_cons, List.append_eq_nil_iff, Line.chars,
        List.append_eq_nil_iff] at htext
      exact absurd htext.1.2 hending.ne_nil
  · have hpos := byteLength_pos hcs
    have hbytes : utf8Bytes cs ≠ [] := by
      rw [← List.length_pos_iff, length_utf8Bytes]
      exact hpos
    rw [scanStarts_eq_error hbytes (Nat.le_of_eq hlimit.symm), hlimit,
      if_pos (decide_eq_true (Nat.lt_add_of_pos_right hpos))]

/-- **What the pass finds** where a line starts: the starts of the lines behind it, unless text
stands where the line starts whose number is the limit.

**Proof sketch.** Induction along the lines.  In a line the pass goes on (`scanStarts_append`), and
its terminator begins the next line (`Terminates.scanStarts_append`), until the line at hand is the
last one that is allowed (`scanStarts_of_full`). -/
theorem Cut.scanStarts_eq {start : Nat} {cs : List Char} {lines : List Line}
    (h : Cut start cs lines) {limit k : Nat} {begun : Array Nat} (hk : begun.size + k = limit) :
    scanStarts limit start begun (utf8Bytes cs) =
      if (lines[k]?).any fun l => decide (l.start < start + byteLength cs) then .error limit
      else .ok (begun ++ (lines.tail.map Line.start).toArray) := by
  have hplain : ∀ {body : List Char}, (∀ c ∈ body, ¬IsBreak c) →
      ∀ b ∈ utf8Bytes body, b ≠ 13 ∧ b ≠ 10 := fun hbody b hb => by
    obtain ⟨c, hc, hbc⟩ := List.mem_flatMap.1 hb
    exact ne_of_mem_utf8EncodeChar (hbody c hc) hbc
  induction h generalizing k begun with
  | @last start body hbody =>
    cases k with
    | zero => exact (Cut.last hbody).scanStarts_of_full hk
    | succ k =>
      have hlimit : begun.size < limit := by omega
      have happend : scanStarts limit start begun (utf8Bytes body ++ []) = _ :=
        scanStarts_append (hplain hbody) hlimit []
      rw [List.append_nil] at happend
      simp [happend, scanStarts]
  | @ended start body ending rest lines hbody hending hrest ih =>
    cases k with
    | zero => exact (Cut.ended hbody hending hrest).scanStarts_of_full hk
    | succ k =>
      have hlimit : begun.size < limit := by omega
      have hnext : (begun.push (start + byteLength (body ++ ending))).size + k = limit := by
        rw [Array.size_push]
        omega
      obtain ⟨line, back, rfl⟩ := List.exists_cons_of_ne_nil hrest.ne_nil
      have hstart : line.start = start + byteLength (body ++ ending) := hrest.cons_inv.1
      rw [List.append_assoc, utf8Bytes_append, scanStarts_append (hplain hbody) hlimit,
        length_utf8Bytes, hending.scanStarts_append hlimit, Nat.add_assoc, ← byteLength_append,
        ih hnext, List.getElem?_cons_succ, ← List.append_assoc, byteLength_append (body ++ ending),
        ← Nat.add_assoc]
      simp [hstart]

/-! ## Slices -/

/-- The characters whose bytes stand in a text from byte `start` to byte `stop`. -/
def IsSlice (text : String) (start stop : Nat) (slice : List Char) : Prop :=
  utf8Bytes slice = (text.toUTF8.data.toList.take stop).drop start

/-- Slices are told apart by where they stand. -/
theorem IsSlice.unique {text : String} {start stop : Nat} {cs ds : List Char}
    (hc : IsSlice text start stop cs) (hd : IsSlice text start stop ds) : cs = ds :=
  utf8Bytes_injective (Eq.trans hc hd.symm)

/-- What stands between two parts of a text is a slice. -/
theorem isSlice_of_eq_append {text : String} {front slice back : List Char}
    (h : text.toList = front ++ slice ++ back) :
    IsSlice text (byteLength front) (byteLength front + byteLength slice) slice := by
  rw [IsSlice, toUTF8_toList, h, utf8Bytes_append, utf8Bytes_append, ← length_utf8Bytes front,
    ← length_utf8Bytes slice, ← List.length_append, List.take_left, List.drop_left]

/-- A line is what is left of its slice without the breaks at the end. -/
theorem Cut.rdropWhile_chars {start : Nat} {cs : List Char} {lines : List Line}
    (h : Cut start cs lines) {line : Line} (hline : line ∈ lines) :
    line.chars.rdropWhile (fun c => decide (IsBreak c)) = line.body := by
  have hending : ∀ c ∈ line.ending.reverse, decide (IsBreak c) = true := fun c hc =>
    decide_eq_true (h.isBreak_ending line hline c (List.mem_reverse.1 hc))
  rw [Line.chars, List.rdropWhile, List.reverse_append, List.dropWhile_append_of_pos hending,
    ← List.rdropWhile, List.rdropWhile_eq_self_iff]
  intro hne hbreak
  exact h.not_isBreak line hline _ (List.getLast_mem hne) (of_decide_eq_true hbreak)

/-- A line is a slice of the text, from its start to that of the next line, or to the end.

**Proof sketch.** The text is split at the line.  What stands in front has as many bytes as the
start of the line says, and the line behind starts where this one ends (`Cut.start_eq`). -/
theorem Cut.isSlice {text : String} {lines : List Line} (h : Cut 0 text.toList lines) {i : Nat}
    {line : Line} (hline : lines[i]? = some line) :
    IsSlice text line.start (((lines.map Line.start)[i + 1]?).getD (byteLength text.toList))
      line.chars := by
  obtain ⟨front, back, rfl, rfl⟩ : ∃ front back, lines = front ++ line :: back ∧
      front.length = i := by
    obtain ⟨hi, rfl⟩ := List.getElem?_eq_some_iff.1 hline
    exact ⟨lines.take i, lines.drop (i + 1), by simp, by simp; omega⟩
  have htext := h.flatMap_chars.symm
  rw [List.flatMap_append, List.flatMap_cons, ← List.append_assoc] at htext
  have hstart := h.start_eq
  rw [Nat.zero_add] at hstart
  have hslice := isSlice_of_eq_append htext
  rw [← hstart] at hslice
  convert hslice using 1
  cases back with
  | nil => simp [htext, hstart]
  | cons next back =>
    have hnext := (List.append_cons front line (next :: back) ▸ h).start_eq
    simp [hnext, hstart]

namespace Source

variable {name text : String} {s : Source}

/-- **A text is taken in as it is scanned**: with the lines whose starts the pass finds, and if the
pass gives up, not at all.

**Proof sketch.** `Cut.scanStarts_eq` says of any cutting what the pass finds.  For the lines of
the text its condition for giving up is `overflows`, and its starts are those of the lines, the
first of which is at zero. -/
theorem ofText_eq_scanStarts (hsize : text.utf8ByteSize ≤ maxBytes) :
    (ofText name text).map (fun s => s.lines.map Line.start) =
      (scanStarts maxLines 0 #[0] text.toUTF8.data.toList).mapError .tooManyLines := by
  have hcut := cut_splitLines text.toList
  have hk : (#[0] : Array Nat).size + (maxLines - 1) = maxLines := by decide
  have hover : overflows (splitLines text.toList) text.utf8ByteSize =
      ((splitLines text.toList).toList[maxLines - 1]?).any
        fun l => decide (l.start < 0 + byteLength text.toList) := by
    rw [overflows, Array.getElem?_toList, Nat.zero_add, utf8ByteSize_eq_byteLength]
    cases (splitLines text.toList)[maxLines - 1]? <;> rfl
  rw [ofText_eq hsize, toUTF8_toList, hcut.scanStarts_eq hk, ← hover]
  cases overflows (splitLines text.toList) text.utf8ByteSize with
  | true => rfl
  | false =>
    obtain ⟨line, back, hlines⟩ := List.exists_cons_of_ne_nil hcut.ne_nil
    have hfirst : line.start = 0 := (hlines ▸ hcut).cons_inv.1
    have hstarts : (splitLines text.toList).map Line.start =
        #[0] ++ ((splitLines text.toList).toList.tail.map Line.start).toArray := by
      rw [← Array.toList_inj, Array.toList_map, hlines]
      simp [hfirst]
    exact congrArg Except.ok hstarts

/-- **The text of a line is a slice without the breaks at its end**: the slice from the start of the
line to that of the next one, or to the end of the text. -/
theorem line?_eq_some_iff (h : ofText name text = .ok s) {i : Nat} {line : String} :
    s.line? (i + 1) = some line ↔ ∃ start slice, (s.lines.map Line.start)[i]? = some start ∧
      IsSlice text start ((s.lines.map Line.start).getD (i + 1) s.bytes) slice ∧
      line = String.ofList (slice.rdropWhile fun c => decide (IsBreak c)) := by
  obtain ⟨hbytes, hcut⟩ := cut_of_ofText h
  rw [line?_succ, hbytes]
  constructor
  · intro hline
    obtain ⟨l, hl, rfl⟩ := Option.map_eq_some_iff.1 hline
    refine ⟨l.start, l.chars, by simpa using ⟨l, by simpa using hl, rfl⟩, ?_, ?_⟩
    · simpa using hcut.isSlice hl
    · rw [hcut.rdropWhile_chars (List.mem_of_getElem? hl)]
  · rintro ⟨start, slice, hstart, hslice, rfl⟩
    obtain ⟨l, hl, rfl⟩ : ∃ l, s.lines.toList[i]? = some l ∧ l.start = start := by
      simpa using hstart
    obtain rfl := hslice.unique (by simpa using hcut.isSlice hl)
    rw [hcut.rdropWhile_chars (List.mem_of_getElem? hl), hl]
    rfl

end Source

end ContractIR
