import ContractIR.Json.Value
import ContractIR.Proofs.Json.Lexemes

/-!
# Rendered values are read back

The text of a value is cut into the tokens of that value, and these are read as that value.  For
the second half any value will do.  For the first half the lexemes must be ones that end where they
should: the values that are made from data have such lexemes.

## Main definitions

* `ContractIR.Json.Written` — the values that are made from data.
* `ContractIR.Json.Legible` — tokens whose text is cut into them again.
* `ContractIR.Json.nestsWithin` — a bound on the depth of arrays and objects.

## Main results

* `ContractIR.Json.readTokens_tokensOnto` — the tokens of a value are read as that value.
* `ContractIR.Json.Written.legible` — the tokens of a value from data are legible.
* `ContractIR.Json.Written.parse?_render` — the text of a value from data is read as that value.
* `ContractIR.Json.Written.isSettled_eq` — of a value from data only the depth can be wrong.
-/

set_option autoImplicit false

namespace ContractIR.Json

open Text (backslash)

/-! ## Tokens and values -/

/-- The tokens of a value do not start with the end of an array. -/
theorem readTokens_itemOrEnd (j : Json) (frames : List Frame) (rest : List Token) :
    readTokens (.itemOrEnd frames) (tokensOnto j rest) =
      readTokens (.value (.array [] :: frames)) (tokensOnto j rest) := by
  cases j <;> simp only [tokensOnto, readTokens, readToken]

mutual

/-- The tokens of a value are read as that value. -/
theorem readTokens_tokensOnto : ∀ (j : Json) (frames : List Frame) (rest : List Token),
    readTokens (.value frames) (tokensOnto j rest) = readTokens (.next j frames) rest
  | .null, _, _ | .bool _, _, _ | .number _, _, _ | .string _, _, _ => by
    simp only [tokensOnto, readTokens, readToken, startValue]
  | .array [], _, _ => by
    simp only [tokensOnto, itemsOnto, readTokens, readToken, startValue]
  | .array (j :: js), frames, rest => by
    have hstart : readTokens (.value frames) (tokensOnto (.array (j :: js)) rest) =
        readTokens (.itemOrEnd frames) (tokensOnto j (itemsOnto false js rest)) := by
      simp only [tokensOnto, itemsOnto, readTokens, readToken, startValue, if_true]
    -- behind the first item the array waits for what follows a value, as behind every other
    rw [hstart, readTokens_itemOrEnd, readTokens_tokensOnto j, readTokens_itemsOnto js]
    rfl
  | .object [], _, _ => by
    simp only [tokensOnto, membersOnto, readTokens, readToken, startValue]
  | .object ((key, j) :: members), frames, rest => by
    have hstart : readTokens (.value frames) (tokensOnto (.object ((key, j) :: members)) rest) =
        readTokens (.value (.object [] key :: frames))
          (tokensOnto j (membersOnto false members rest)) := by
      simp only [tokensOnto, membersOnto, readTokens, readToken, startValue, if_true]
    rw [hstart, readTokens_tokensOnto j, readTokens_membersOnto members]
    rfl

/-- The tokens of the items behind a value complete the array of that value. -/
theorem readTokens_itemsOnto : ∀ (js : List Json) (value : Json) (items : List Json)
    (frames : List Frame) (rest : List Token),
    readTokens (.next value (.array items :: frames)) (itemsOnto false js rest) =
      readTokens (.next (.array (items.reverse ++ value :: js)) frames) rest
  | [], _, _, _, _ => by
    simp [itemsOnto, readTokens, readToken, continueValue]
  | j :: js, value, items, frames, rest => by
    have hcomma :
        readTokens (.next value (.array items :: frames)) (itemsOnto false (j :: js) rest) =
          readTokens (.value (.array (value :: items) :: frames))
            (tokensOnto j (itemsOnto false js rest)) := by
      simp [itemsOnto, readTokens, readToken, continueValue]
    rw [hcomma, readTokens_tokensOnto j, readTokens_itemsOnto js]
    simp

/-- The tokens of the members behind a value complete the object of that value. -/
theorem readTokens_membersOnto : ∀ (rest : List (String × Json)) (value : Json)
    (members : List (String × Json)) (key : String) (frames : List Frame) (tokens : List Token),
    readTokens (.next value (.object members key :: frames)) (membersOnto false rest tokens) =
      readTokens (.next (.object (members.reverse ++ (key, value) :: rest)) frames) tokens
  | [], _, _, _, _, _ => by
    simp [membersOnto, readTokens, readToken, continueValue]
  | (name, j) :: rest, value, members, key, frames, tokens => by
    have hcomma : readTokens (.next value (.object members key :: frames))
          (membersOnto false ((name, j) :: rest) tokens) =
        readTokens (.value (.object ((key, value) :: members) name :: frames))
          (tokensOnto j (membersOnto false rest tokens)) := by
      simp [membersOnto, readTokens, readToken, continueValue]
    rw [hcomma, readTokens_tokensOnto j, readTokens_membersOnto rest]
    simp

end

/-! ## Characters and tokens -/

/-- Tokens whose text a reader between two tokens cuts into them again. -/
def Legible (ts : List Token) : Prop :=
  ∀ done, readChars done .between (ts.flatMap fun t => t.text.toList) = some (done.reverse ++ ts)

/-- The tokens that stand for themselves wherever they are. -/
def Token.isMark : Token → Bool
  | .openArray | .closeArray | .openObject | .closeObject | .comma | .colon => true
  | .null | .bool _ | .number _ | .string _ => false

/-- Whether nothing or a mark comes first. -/
def StartsWithMark (ts : List Token) : Prop := ∀ t ∈ ts.head?, t.isMark = true

/-- The character of a mark is a token, and part of no number or word. -/
theorem Token.exists_char {t : Token} (h : t.isMark = true) :
    ∃ c, t.text.toList = [c] ∧ isNumberChar c = false ∧ c.isLower = false ∧
      startToken c = some ([t], .between) := by
  cases t with
  | openArray => exact ⟨'[', rfl, rfl, rfl, rfl⟩
  | closeArray => exact ⟨']', rfl, rfl, rfl, rfl⟩
  | openObject => exact ⟨'\x7b', rfl, rfl, rfl, rfl⟩
  | closeObject => exact ⟨'\x7d', rfl, rfl, rfl, rfl⟩
  | comma => exact ⟨',', rfl, rfl, rfl, rfl⟩
  | colon => exact ⟨':', rfl, rfl, rfl, rfl⟩
  | null | bool _ | number _ | string _ => cases h

/-- No tokens are legible. -/
theorem legible_nil : Legible [] := fun done => by simp [readChars, finish?]

/-- A mark is read wherever a token may stand. -/
theorem Legible.mark {t : Token} {ts : List Token} (ht : t.isMark = true) (hts : Legible ts) :
    Legible (t :: ts) := by
  intro done
  obtain ⟨c, htext, -, -, hstart⟩ := Token.exists_char ht
  rw [List.flatMap_cons, htext, List.cons_append, List.nil_append, readChars, readChar, hstart]
  simpa using hts (t :: done)

/-- A character that ends no token. -/
theorem readChars_cons {mode next : Mode} {c : Char} (h : readChar mode c = some ([], next))
    (done : List Token) (cs : List Char) :
    readChars done mode (c :: cs) = readChars done next cs := by
  rw [readChars, h]
  rfl

/-- A digit of a code unit before the last one. -/
theorem readChar_hex {left : Nat} (hleft : 1 < left) {d : Char} {n : Nat}
    (hd : hexValue? d = some n) (read : List Char) :
    readChar (.hex left read) d = some ([], .hex (left - 1) (d :: read)) := by
  simp [readChar, hd, Nat.not_le.2 hleft]

/-- Reading a written character inside a string stays inside the string.

**Proof sketch.** By the three ways a character is written (`escapedChar_cases`).  The reader
goes one step for each character of it: two for a short escape, six for a code, where the four
digits are counted down, and one for a plain character. -/
theorem readChars_escapedChar (done : List Token) (read rest : List Char) (c : Char) :
    readChars done (.text read) (escapedChar c ++ rest) =
      readChars done (.text ((escapedChar c).reverse ++ read)) rest := by
  have hescape : readChar (.text read) backslash = some ([], .escape (backslash :: read)) := rfl
  rcases escapedChar_cases c with ⟨letter, h, hshort, hu⟩ | ⟨hcontrol, h⟩ | ⟨h, hquote, hc, hlow⟩
  · have hletter : readChar (.escape (backslash :: read)) letter =
        some ([], .text (letter :: backslash :: read)) := by
      simp [readChar, hu, hshort]
    rw [h, List.cons_append, List.cons_append, readChars_cons hescape, readChars_cons hletter]
    rfl
  · have hunit : readChar (.escape (backslash :: read)) 'u' =
        some ([], .hex 4 ('u' :: backslash :: read)) := rfl
    have hzero : hexValue? '0' = some 0 := rfl
    have hhigh := hexValue?_hexDigit (c.toNat / 16) (by omega)
    have hlast : ∀ read, readChar (.hex 1 read) (hexDigit (c.toNat % 16)) =
        some ([], .text (hexDigit (c.toNat % 16) :: read)) := fun read => by
      simp [readChar, hexValue?_hexDigit (c.toNat % 16) (by omega)]
    rw [h]
    simp only [List.cons_append]
    rw [readChars_cons hescape, readChars_cons hunit,
      readChars_cons (readChar_hex (by omega) hzero _),
      readChars_cons (readChar_hex (by omega) hzero _),
      readChars_cons (readChar_hex (by omega) hhigh _), readChars_cons (hlast _)]
    rfl
  · have hplain : readChar (.text read) c = some ([], .text (c :: read)) := by
      simp [readChar, hquote, hc, Nat.not_lt.2 hlow]
    rw [h, List.cons_append, readChars_cons hplain]
    rfl

/-- Reading written characters inside a string stays inside the string. -/
theorem readChars_flatMap (cs : List Char) (done : List Token) (read rest : List Char) :
    readChars done (.text read) (cs.flatMap escapedChar ++ rest) =
      readChars done (.text ((cs.flatMap escapedChar).reverse ++ read)) rest := by
  induction cs generalizing read with
  | nil => rfl
  | cons c cs ih => rw [List.flatMap_cons, List.append_assoc, readChars_escapedChar, ih]; simp

/-- A written text is read wherever a token may stand. -/
theorem Legible.text (s : String) {ts : List Token} (hts : Legible ts) :
    Legible (.string (escaped s) :: ts) := by
  intro done
  have htext : (Token.string (escaped s)).text.toList =
      '\x22' :: (s.toList.flatMap escapedChar ++ ['\x22']) := by
    simp [Token.text, escaped]
  have hopen : readChar .between '\x22' = some ([], .text []) := rfl
  have hclose : ∀ read, readChar (.text read) '\x22' =
      some ([.string (String.ofList read.reverse)], .between) := fun _ => rfl
  rw [List.flatMap_cons, htext, List.cons_append, readChars, hopen, List.append_assoc]
  simp only [List.reverse_nil, List.nil_append, readChars_flatMap, List.cons_append, readChars,
    hclose, List.append_nil, List.reverse_reverse, List.reverse_singleton]
  simpa [escaped] using hts (.string (escaped s) :: done)

/-- What is being read ends with the text, or where a mark follows. -/
theorem Legible.finish {mode : Mode} {t : Token} {ts : List Token} (hmode : finish? mode = some [t])
    (hrestart : ∀ c, isNumberChar c = false → c.isLower = false → readChar mode c = restart mode c)
    (hmark : StartsWithMark ts) (hts : Legible ts) (done : List Token) :
    readChars done mode (ts.flatMap fun t => t.text.toList) = some (done.reverse ++ t :: ts) := by
  cases ts with
  | nil => simp [readChars, hmode]
  | cons m ts =>
    -- the character of the mark ends the token and is read as if it had stood alone
    obtain ⟨c, htext, hnumber, hlower, hstart⟩ := Token.exists_char (hmark m rfl)
    have hrest := hts (t :: done)
    rw [List.flatMap_cons, htext, List.cons_append, List.nil_append, readChars] at hrest ⊢
    rw [hrestart c hnumber hlower]
    simp only [readChar, hstart, restart, hmode, Option.bind_eq_bind, Option.bind_some,
      Option.pure_def] at hrest ⊢
    simpa using hrest

/-- Reading digits of a number stays inside the number. -/
theorem readChars_digits {ds : List Char} (hds : ∀ d ∈ ds, d.isDigit = true) (done : List Token)
    (read rest : List Char) :
    readChars done (.number read) (ds ++ rest) =
      readChars done (.number (ds.reverse ++ read)) rest := by
  induction ds generalizing read with
  | nil => rfl
  | cons d ds ih =>
    obtain ⟨hd, hds⟩ := List.forall_mem_cons.1 hds
    simp [readChars, readChar, isNumberChar, hd, ih hds]

/-- A digit starts a number. -/
theorem startToken_digit {d : Char} (hd : d.isDigit = true) :
    startToken d = some ([], .number [d]) := by
  have hne : ∀ c : Char, c.isDigit = false → d ≠ c := by
    rintro c hc rfl
    simp [hd] at hc
  simp [startToken, isSpace, mark?, hd, hne]

/-- A natural number is read where a mark follows.

**Proof sketch.** The first digit starts a number, the others continue it (`readChars_digits`),
and the mark that follows ends it, with the numeral accepted by `numeral?_toString`
(`Legible.finish`). -/
theorem Legible.number (n : Nat) {ts : List Token} (hmark : StartsWithMark ts) (hts : Legible ts) :
    Legible (.number (toString n) :: ts) := by
  intro done
  have htext : (Token.number (toString n)).text.toList = Nat.toDigits 10 n := toList_toString n
  have hdigits := List.all_eq_true.1 (all_isDigit_toDigits n)
  have hfinish : finish? (.number (Nat.toDigits 10 n).reverse) = some [.number (toString n)] := by
    have hlexeme : String.ofList (Nat.toDigits 10 n) = toString n := by
      rw [← toList_toString, String.ofList_toList]
    simp only [finish?, List.reverse_reverse, hlexeme, numeral?_toString, Option.map_some]
  have hread := Legible.finish hfinish (fun c hc _ => by simp [readChar, hc]) hmark hts done
  rw [List.flatMap_cons, htext]
  cases h : Nat.toDigits 10 n with
  | nil => exact absurd h Nat.toDigits_ne_nil
  | cons d ds =>
    obtain ⟨hd, hds⟩ := List.forall_mem_cons.1 (h ▸ hdigits)
    rw [List.cons_append, readChars, readChar, startToken_digit hd]
    simp only [List.reverse_nil, List.nil_append, readChars_digits hds]
    rwa [h, List.reverse_cons] at hread

/-- A word is read where a mark follows. -/
theorem Legible.word {t : Token} {ts : List Token} (ht : t = .null ∨ ∃ b, t = .bool b)
    (hmark : StartsWithMark ts) (hts : Legible ts) : Legible (t :: ts) := by
  intro done
  have hread : ∀ word, wordToken? word = some t → readChars done (.word word.toList.reverse)
      (ts.flatMap fun t => t.text.toList) = some (done.reverse ++ t :: ts) := fun word hword =>
    Legible.finish (by simp [finish?, hword]) (fun c _ hc => by simp [readChar, hc]) hmark hts done
  rcases ht with rfl | ⟨_ | _, rfl⟩
  · exact hread "null" rfl
  · exact hread "false" rfl
  · exact hread "true" rfl

/-! ## Values from data -/

/-- The values that are made from data: numbers of at most 64 bits, texts, and arrays and objects
of such values. -/
inductive Written : Json → Prop where
  | null : Written .null
  | bool (b : Bool) : Written (.bool b)
  | number {n : Nat} (h : n < UInt64.size) : Written (.ofNat n)
  | text (s : String) : Written (.ofText s)
  | array {items : List Json} (h : ∀ j ∈ items, Written j) : Written (.array items)
  | object {members : List (String × Json)} (h : ∀ e ∈ members, Written e.2) :
    Written (.ofMembers members)

/-- Behind an item there is a mark. -/
theorem startsWithMark_itemsOnto (js : List Json) (rest : List Token) :
    StartsWithMark (itemsOnto false js rest) := by
  cases js <;> simp [StartsWithMark, itemsOnto, Token.isMark]

/-- Behind a member there is a mark. -/
theorem startsWithMark_membersOnto (members : List (String × Json)) (rest : List Token) :
    StartsWithMark (membersOnto false members rest) := by
  cases members <;> simp [StartsWithMark, membersOnto, Token.isMark]

/-- Items are legible if each of them is. -/
theorem legible_itemsOnto {js : List Json} {rest : List Token}
    (h : ∀ j ∈ js, ∀ rest, StartsWithMark rest → Legible rest → Legible (tokensOnto j rest))
    (hrest : Legible rest) (first : Bool) : Legible (itemsOnto first js rest) := by
  induction js generalizing first with
  | nil =>
    rw [itemsOnto]
    exact hrest.mark rfl
  | cons j js ih =>
    obtain ⟨hj, hjs⟩ := List.forall_mem_cons.1 h
    have htokens := hj _ (startsWithMark_itemsOnto js rest) (ih hjs false)
    cases first with
    | true => simpa only [itemsOnto, if_true] using htokens
    | false => simpa [itemsOnto] using htokens.mark (t := .comma) rfl

/-- Members are legible if the value of each of them is. -/
theorem legible_membersOnto {members : List (String × Json)} {rest : List Token}
    (h : ∀ e ∈ members, ∀ rest, StartsWithMark rest → Legible rest → Legible (tokensOnto e.2 rest))
    (hrest : Legible rest) (first : Bool) :
    Legible (membersOnto first (members.map fun e => (escaped e.1, e.2)) rest) := by
  induction members generalizing first with
  | nil =>
    rw [List.map_nil, membersOnto]
    exact hrest.mark rfl
  | cons e members ih =>
    obtain ⟨he, hmembers⟩ := List.forall_mem_cons.1 h
    have htokens := he _ (startsWithMark_membersOnto _ rest) (ih hmembers false)
    have hmember := (htokens.mark (t := .colon) rfl).text e.1
    cases first with
    | true => simpa only [List.map_cons, membersOnto, if_true] using hmember
    | false => simpa [membersOnto] using hmember.mark (t := .comma) rfl

/-- The tokens of a value from data are legible.

**Proof sketch.** Induction on how the value came from data.  Words and numbers ask for a mark
behind them, a text does not, and the items and members of the containers are `legible_itemsOnto`
and `legible_membersOnto`. -/
theorem Written.legible {j : Json} (h : Written j) : ∀ rest, StartsWithMark rest → Legible rest →
    Legible (tokensOnto j rest) := by
  induction h with
  | null =>
    intro rest hmark hrest
    rw [tokensOnto]
    exact .word (.inl rfl) hmark hrest
  | bool b =>
    intro rest hmark hrest
    rw [tokensOnto]
    exact .word (.inr ⟨b, rfl⟩) hmark hrest
  | @number n _ =>
    intro rest hmark hrest
    rw [ofNat, tokensOnto]
    exact .number n hmark hrest
  | text s =>
    intro rest _ hrest
    rw [ofText, tokensOnto]
    exact .text s hrest
  | array _ ih =>
    intro rest _ hrest
    rw [tokensOnto]
    exact (legible_itemsOnto ih hrest true).mark rfl
  | object _ ih =>
    intro rest _ hrest
    rw [ofMembers, tokensOnto]
    exact (legible_membersOnto ih hrest true).mark rfl

/-- The characters of the text of a value. -/
theorem toList_render (j : Json) :
    j.render.toList = (tokensOnto j []).flatMap fun t => t.text.toList := by
  have hfold : ∀ (ts : List Token) (s : String), (ts.foldl (fun s t => s ++ t.text) s).toList =
      s.toList ++ ts.flatMap fun t => t.text.toList := by
    intro ts
    induction ts with
    | nil => simp
    | cons t ts ih => intro s; rw [List.foldl_cons, ih]; simp
  rw [render, hfold]
  rfl

/-- The text of a value from data is read as that value. -/
theorem Written.parse?_render {j : Json} (h : Written j) : parse? j.render = some j := by
  have htokens : tokens? j.render = some (tokensOnto j []) := by
    rw [tokens?, toList_render, h.legible [] (by simp [StartsWithMark]) legible_nil]
    rfl
  rw [parse?, htokens, Option.bind_some, readTokens_tokensOnto]
  rfl

/-! ## Depth -/

/-- Whether arrays and objects are nested at most `depth` deep. -/
def nestsWithin : Nat → Json → Bool
  | _, .null | _, .bool _ | _, .number _ | _, .string _ => true
  | 0, .array _ => false
  | depth + 1, .array items => items.all (nestsWithin depth)
  | 0, .object _ => false
  | depth + 1, .object members => members.all fun e => nestsWithin depth e.2

/-- A truth value fits into any depth. -/
@[simp] theorem nestsWithin_bool (depth : Nat) (b : Bool) : nestsWithin depth (.bool b) = true := by
  cases depth <;> rfl

/-- The null value fits into any depth. -/
@[simp] theorem nestsWithin_null (depth : Nat) : nestsWithin depth .null = true := by
  cases depth <;> rfl

/-- A number fits into any depth. -/
@[simp] theorem nestsWithin_ofNat (depth n : Nat) : nestsWithin depth (.ofNat n) = true := by
  cases depth <;> rfl

/-- A text fits into any depth. -/
@[simp] theorem nestsWithin_ofText (depth : Nat) (s : String) :
    nestsWithin depth (.ofText s) = true := by
  cases depth <;> rfl

/-- An array nests one deeper than its items. -/
@[simp] theorem nestsWithin_array (depth : Nat) (items : List Json) :
    nestsWithin depth (.array items) = true ↔
      0 < depth ∧ ∀ j ∈ items, nestsWithin (depth - 1) j = true := by
  cases depth <;> simp [nestsWithin]

/-- An object nests one deeper than its members. -/
@[simp] theorem nestsWithin_ofMembers (depth : Nat) (members : List (String × Json)) :
    nestsWithin depth (.ofMembers members) = true ↔
      0 < depth ∧ ∀ e ∈ members, nestsWithin (depth - 1) e.2 = true := by
  cases depth <;> simp [nestsWithin, ofMembers]

/-- An object takes a level of depth. -/
theorem exists_succ_of_nestsWithin {depth : Nat} {members : List (String × Json)}
    (h : nestsWithin depth (.ofMembers members) = true) :
    ∃ below, depth = below + 1 ∧ ∀ e ∈ members, nestsWithin below e.2 = true := by
  obtain ⟨hdepth, hmembers⟩ := (nestsWithin_ofMembers depth members).1 h
  exact ⟨depth - 1, by omega, hmembers⟩

/-- Of a value from data only the depth can be wrong.

**Proof sketch.** Induction on how the value came from data.  A number has few enough digits to
be finite and a text unescapes, so only the level is asked of them; containers ask the same of
their items one level below. -/
theorem Written.isSettled_eq {j : Json} (h : Written j) (depth : Nat) :
    j.isSettled depth = j.nestsWithin depth := by
  induction h generalizing depth with
  | null | bool _ => cases depth <;> rfl
  | @number n hn =>
    have hfinite : Numeral.isFinite ⟨false, Nat.toDigits 10 n, none, none⟩ = true :=
      isFinite_of_digits (by simpa using hn)
    cases depth <;>
      simp only [ofNat, isSettled, nestsWithin, numeral?_toString, Option.map_some, hfinite,
        Option.getD_some]
  | text s => cases depth <;> simp [ofText, isSettled, nestsWithin]
  | @array items _ ih =>
    cases depth with
    | zero => rfl
    | succ depth =>
      rw [Bool.eq_iff_iff]
      simp only [isSettled, nestsWithin, List.all_eq_true]
      exact forall₂_congr fun j hj => by rw [ih j hj depth]
  | @object members _ ih =>
    cases depth with
    | zero => rfl
    | succ depth =>
      rw [Bool.eq_iff_iff]
      simp only [ofMembers, isSettled, nestsWithin, List.all_eq_true, List.forall_mem_map,
        unescape?_escaped, Option.isSome_some, Bool.true_and]
      exact forall₂_congr fun e he => by rw [ih e he depth]

end ContractIR.Json
