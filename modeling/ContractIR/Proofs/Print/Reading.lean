import ContractIR.Attr
import ContractIR.Proofs.Json.Lexemes

/-!
# Unique reading of types and attributes

No two types have the same printed form, and no two attributes.  A type ends where its printed form
ends: whatever stands behind it, a comma, a closing bracket or nothing, a text starts with at most
one type.  The only place where this is in danger is the result of a function, which stands bare if
it is the only one; a list of results in parentheses looks like the inputs of a function until the
arrow.

## Main definitions

* `ContractIR.Closed` — what may stand behind a type.
* `ContractIR.Ty.Legible` — a type is all that a text with its printed form in front can start with.

## Main results

* `ContractIR.Text.escape_injective` — escaping keeps texts apart.
* `ContractIR.Ty.legible` — every type is legible.
* `ContractIR.text_eq_text_iff` — equal printed forms are printed forms of equal types or
  attributes.
-/

set_option autoImplicit false

namespace ContractIR

/-! ## Cutting a text in two -/

/-- A text is cut in one way into letters of a class and a rest that starts with none. -/
theorem append_eq_append_of_class {α : Type} {p : α → Bool} {xs ys as bs : List α}
    (hxs : ∀ x ∈ xs, p x = true) (hys : ∀ y ∈ ys, p y = true) (has : ∀ a ∈ as.head?, p a = false)
    (hbs : ∀ b ∈ bs.head?, p b = false) (h : xs ++ as = ys ++ bs) : xs = ys ∧ as = bs := by
  have hstop : ∀ {zs : List α}, (∀ z ∈ zs.head?, p z = false) → zs.takeWhile p = [] := by
    rintro (_ | ⟨z, zs⟩) hzs
    · rfl
    · exact List.takeWhile_cons_of_neg (by simp [hzs z rfl])
  have htake := congrArg (List.takeWhile p) h
  rw [List.takeWhile_append_of_pos hxs, List.takeWhile_append_of_pos hys, hstop has, hstop hbs,
    List.append_nil, List.append_nil] at htake
  subst htake
  exact ⟨rfl, List.append_cancel_left h⟩

/-- Letter by letter, a text is rewritten in such a way that it can be read back, if no rewritten
letter is empty and none is the start of another one. -/
theorem flatMap_injective_of_prefixFree {α β : Type} {f : α → List β} (hf : ∀ x, f x ≠ [])
    (hfree : ∀ {x y as bs}, f x ++ as = f y ++ bs → x = y ∧ as = bs) :
    Function.Injective (List.flatMap f) := by
  intro xs
  induction xs with
  | nil =>
    rintro (_ | ⟨y, ys⟩) h
    · rfl
    · exact absurd (List.append_eq_nil_iff.1 h.symm).1 (hf y)
  | cons x xs ih =>
    rintro (_ | ⟨y, ys⟩) h
    · exact absurd (List.append_eq_nil_iff.1 h).1 (hf x)
    · obtain ⟨rfl, hrest⟩ := hfree h
      rw [ih hrest]

/-! ## Numbers -/

/-- A digit knows its value. -/
theorem digitChar_injOn : ∀ i < 16, ∀ j < 16, Nat.digitChar i = Nat.digitChar j → i = j := by
  decide

/-- The digits of a number write no other number.

**Proof sketch.** Strong induction on the number: the last digits are equal, and so are the
digits in front of them, by induction; a number of one digit has nothing in front. -/
theorem toDigits_injective {base : Nat} (hbase : 1 < base) (hsmall : base ≤ 16) :
    Function.Injective (Nat.toDigits base) := by
  intro m
  induction m using Nat.strongRecOn with
  | ind m ih =>
    intro n h
    have hdigit : ∀ k, k % base < 16 := fun k =>
      Nat.lt_of_lt_of_le (Nat.mod_lt k (by omega)) hsmall
    rw [Nat.toDigits_eq_if hbase, Nat.toDigits_eq_if hbase (n := n)] at h
    split_ifs at h with hm hn hn
    · exact digitChar_injOn m (by omega) n (by omega) (List.singleton_inj.1 h)
    · have happend : [] ++ [_] = _ ++ [_] := h
      exact absurd (List.append_inj' happend rfl).1.symm Nat.toDigits_ne_nil
    · have happend : _ ++ [_] = [] ++ [_] := h
      exact absurd (List.append_inj' happend rfl).1 Nat.toDigits_ne_nil
    · obtain ⟨hhigh, hlow⟩ := List.append_inj' h rfl
      have hdiv := ih (m / base) (Nat.div_lt_self (by omega) hbase) hhigh
      have hmod := digitChar_injOn _ (hdigit m) _ (hdigit n) (List.singleton_inj.1 hlow)
      rw [← Nat.div_add_mod m base, ← Nat.div_add_mod n base, hdiv, hmod]

/-- The digits of a number end where something else begins. -/
theorem toDigits_append_inj {m n : Nat} {as bs : List Char}
    (has : ∀ a ∈ as.head?, a.isDigit = false) (hbs : ∀ b ∈ bs.head?, b.isDigit = false)
    (h : Nat.toDigits 10 m ++ as = Nat.toDigits 10 n ++ bs) : m = n ∧ as = bs := by
  obtain ⟨hdigits, hrest⟩ := append_eq_append_of_class
    (List.all_eq_true.1 (Json.all_isDigit_toDigits m))
    (List.all_eq_true.1 (Json.all_isDigit_toDigits n)) has hbs h
  exact ⟨toDigits_injective (by decide) (by decide) hdigits, hrest⟩

/-- The letters of an integer. -/
def isIntLetter (c : Char) : Bool := c.isDigit || c == '-'

/-- An integer is written with digits and a sign, and with at least one letter. -/
theorem isIntLetter_of_mem_toString {n : Int} :
    (toString n).toList ≠ [] ∧ ∀ c ∈ (toString n).toList, isIntLetter c = true := by
  have hdigits : ∀ k, ∀ c ∈ Nat.toDigits 10 k, isIntLetter c = true := fun k c hc => by
    simp [isIntLetter, List.all_eq_true.1 (Json.all_isDigit_toDigits k) c hc]
  cases n with
  | ofNat k =>
    have htext : (toString (Int.ofNat k)).toList = Nat.toDigits 10 k := Nat.toList_repr
    rw [htext]
    exact ⟨Nat.toDigits_ne_nil, hdigits k⟩
  | negSucc k =>
    have htext : (toString (Int.negSucc k)).toList = '-' :: Nat.toDigits 10 (k + 1) := by
      change ("-" ++ (k + 1).repr).toList = _
      rw [String.toList_append, Nat.toList_repr]
      rfl
    rw [htext]
    exact ⟨List.cons_ne_nil _ _, List.forall_mem_cons.2 ⟨rfl, hdigits _⟩⟩

/-- An integer ends where something else begins. -/
theorem toString_append_inj {m n : Int} {as bs : List Char}
    (has : ∀ a ∈ as.head?, isIntLetter a = false) (hbs : ∀ b ∈ bs.head?, isIntLetter b = false)
    (h : (toString m).toList ++ as = (toString n).toList ++ bs) : m = n ∧ as = bs := by
  obtain ⟨htext, hrest⟩ := append_eq_append_of_class isIntLetter_of_mem_toString.2
    isIntLetter_of_mem_toString.2 has hbs h
  have hread := congrArg Text.readInt? (String.toList_inj.1 htext)
  rw [Text.readInt?_toString, Text.readInt?_toString] at hread
  exact ⟨Option.some.inj hread, hrest⟩

/-! ## Escaped texts -/

namespace Text

/-- What a letter behind a backslash stands for. -/
def escapedBy (letter : Char) : Char :=
  if letter = 't' then '\t' else if letter = 'r' then '\r' else if letter = 'n' then '\n'
  else letter

/-- A character is written as a letter behind a backslash, as itself, or as its code point. -/
theorem escapeChar_cases (c : Char) :
    (∃ letter, escapeChar c = [backslash, letter] ∧ escapedBy letter = c ∧ letter ≠ 'u') ∨
      (escapeChar c = [c] ∧ c ≠ backslash) ∨
      escapeChar c = [backslash, 'u', '\x7b'] ++ (Nat.toDigits 16 c.toNat ++ ['\x7d']) := by
  unfold escapeChar
  split_ifs with htab hreturn hfeed hself hplain
  · exact .inl ⟨'t', rfl, htab.symm, by decide⟩
  · exact .inl ⟨'r', rfl, hreturn.symm, by decide⟩
  · exact .inl ⟨'n', rfl, hfeed.symm, by decide⟩
  · refine .inl ⟨c, rfl, ?_⟩
    rcases hself with rfl | rfl | rfl <;> decide
  · exact .inr (.inl ⟨rfl, fun hc => hself (.inr (.inr hc))⟩)
  · exact .inr (.inr (List.append_assoc _ _ _))

/-- A closing brace does not stand among hexadecimal digits. -/
theorem brace_notMem_toDigits (n : Nat) : ∀ c ∈ Nat.toDigits 16 n, decide (c ≠ '\x7d') = true := by
  induction n using Nat.strongRecOn with
  | ind n ih =>
    rw [Nat.toDigits_eq_if (by decide)]
    split_ifs with hn
    · simp
    · intro c hc
      rcases List.mem_append.1 hc with hc | hc
      · exact ih (n / 16) (by omega) c hc
      · rw [List.mem_singleton.1 hc]
        simp

/-- No written character is the start of another one.

**Proof sketch.** By the three ways each of the two characters is written.  Different ways differ
in their first or second letter; two codes in braces have the same digits, up to the brace. -/
theorem escapeChar_append_inj {c d : Char} {as bs : List Char}
    (h : escapeChar c ++ as = escapeChar d ++ bs) : c = d ∧ as = bs := by
  rcases escapeChar_cases c with ⟨x, hc, hx, hxu⟩ | ⟨hc, hcb⟩ | hc <;>
  rcases escapeChar_cases d with ⟨y, hd, hy, hyu⟩ | ⟨hd, hdb⟩ | hd <;>
  rw [hc, hd] at h
  · obtain ⟨-, rfl, hrest⟩ : backslash = backslash ∧ x = y ∧ as = bs := by simpa using h
    exact ⟨hx.symm.trans hy, hrest⟩
  · exact absurd (List.cons.inj h).1.symm hdb
  · exact absurd (List.cons.inj (List.cons.inj h).2).1 hxu
  · exact absurd (List.cons.inj h).1 hcb
  · exact List.cons.inj h
  · exact absurd (List.cons.inj h).1 hcb
  · exact absurd (List.cons.inj (List.cons.inj h).2).1.symm hyu
  · exact absurd (List.cons.inj h).1.symm hdb
  · rw [List.append_assoc, List.append_assoc, List.append_assoc, List.append_assoc] at h
    obtain ⟨hdigits, hrest⟩ := append_eq_append_of_class (brace_notMem_toDigits _)
      (brace_notMem_toDigits _) (by simp) (by simp) (List.append_cancel_left h)
    exact ⟨Char.toNat_inj.1 (toDigits_injective (by decide) (by decide) hdigits),
      (List.cons.inj hrest).2⟩

/-- **Escaping keeps texts apart.** -/
theorem escape_injective : Function.Injective escape := by
  intro s t h
  have hne : ∀ c, escapeChar c ≠ [] := fun c => by
    rcases escapeChar_cases c with ⟨x, hc, -⟩ | ⟨hc, -⟩ | hc <;> rw [hc] <;> simp
  refine String.toList_inj.1 (flatMap_injective_of_prefixFree hne escapeChar_append_inj ?_)
  simpa [escape] using congrArg String.toList h

end Text

/-! ## Types -/

/-- What may stand behind a type: nothing, or a comma or a closing bracket with anything behind
it. -/
def Closed (cs : List Char) : Prop := ∀ c ∈ cs.head?, c = ',' ∨ c = ')' ∨ c = '>'

/-- A type may stand at the end. -/
theorem closed_nil : Closed [] := by simp [Closed]

/-- No digit may stand behind a type. -/
theorem Closed.isDigit {cs : List Char} (h : Closed cs) : ∀ c ∈ cs.head?, c.isDigit = false := by
  intro c hc
  rcases h c hc with rfl | rfl | rfl <;> rfl

namespace Ty

/-- The letters of a type. -/
def letters (t : Ty) : List Char := t.text.toList

/-- The letters of some types, with commas between them. -/
def lettersOf (ts : List Ty) : List Char := (Text.commas (texts ts)).toList

/-- What stands behind a type in a list that goes on with some types. -/
def lettersBehind : List Ty → List Char
  | [] => []
  | t :: ts => ',' :: ' ' :: lettersOf (t :: ts)

/-- The letters of the results of a function. -/
def lettersOfResults : List Ty → List Char
  | [t] => t.letters
  | ts => '(' :: (lettersOf ts ++ [')'])

/-- A list of types starts with the letters of the first one. -/
theorem lettersOf_cons (t : Ty) (ts : List Ty) :
    lettersOf (t :: ts) = t.letters ++ lettersBehind ts := by
  cases ts with
  | nil => simp [lettersOf, lettersBehind, letters, texts]
  | cons u ts =>
    simp only [lettersOf, lettersBehind, letters, texts, Text.commas_cons_cons,
      String.toList_append]
    simp

/-- The letters of an integer type. -/
theorem letters_int (bits : Nat) : (int bits).letters = 'i' :: Nat.toDigits 10 bits := by
  rw [letters, text, String.toList_append, Json.toList_toString]
  rfl

/-- The letters of a pointer with an address space. -/
theorem letters_ptr_succ (space : Nat) :
    (ptr (space + 1)).letters = "!llvm.ptr<".toList ++ (Nat.toDigits 10 (space + 1) ++ ['>']) := by
  rw [letters, text, String.toList_append, String.toList_append, Json.toList_toString,
    List.append_assoc]
  · rfl
  · simp

/-- The letters of the type of a cell. -/
theorem letters_memref (elem : Ty) :
    (memref elem).letters = "memref<".toList ++ (elem.letters ++ ['>']) := by
  rw [letters, text, String.toList_append, String.toList_append, List.append_assoc]
  rfl

/-- The letters of an array type. -/
theorem letters_array (elem : Ty) (length : Nat) :
    (array elem length).letters = "!llvm.array<".toList ++
      (Nat.toDigits 10 length ++ (' ' :: 'x' :: ' ' :: (elem.letters ++ ['>']))) := by
  rw [letters, text, String.toList_append, String.toList_append, String.toList_append,
    String.toList_append, Json.toList_toString]
  simp [letters]

/-- The letters of a function type. -/
theorem letters_func (inputs results : List Ty) : (func inputs results).letters =
    '(' :: (lettersOf inputs ++ (')' :: ' ' :: '-' :: '>' :: ' ' :: lettersOfResults results)) := by
  have harrow : (func inputs results).text =
      Signature.arrow (Ty.texts inputs) (Ty.texts results) := by rw [text]
  rw [letters, harrow]
  match results with
  | [] | [_] | _ :: _ :: _ => simp [Signature.arrow, texts, lettersOfResults, lettersOf, letters]

/-- The letters of a pointer without an address space. -/
theorem letters_ptr_zero : (ptr 0).letters = "!llvm.ptr".toList := by rw [letters, text]

/-- The letter by which the printed form of a type is told from those of other sorts of types. -/
def mark : Ty → Char
  | int _ => 'i'
  | ptr _ => 'p'
  | memref _ => 'm'
  | array _ _ => 'a'
  | func _ _ => '('

/-- The letter of a text that tells what sort of type it starts with: the first one, or that behind
the name of the dialect. -/
def markIn (cs : List Char) : Option Char := if cs.head? = some '!' then cs[6]? else cs.head?

/-- The first letters of a type tell which form it has. -/
theorem markIn_letters (t : Ty) (as : List Char) : markIn (t.letters ++ as) = some t.mark := by
  cases t with
  | int bits => rw [letters_int]; rfl
  | ptr space =>
    cases space with
    | zero => rw [letters_ptr_zero]; rfl
    | succ space => rw [letters_ptr_succ]; rfl
  | memref elem => rw [letters_memref]; rfl
  | array elem length => rw [letters_array]; rfl
  | func inputs results => rw [letters_func]; rfl

/-- What a type starts with. -/
theorem head?_letters (t : Ty) : ∃ c ∈ ['i', '!', 'm', '('], t.letters.head? = some c := by
  cases t with
  | int bits => exact ⟨'i', by simp, by rw [letters_int]; rfl⟩
  | ptr space =>
    cases space with
    | zero => exact ⟨'!', by simp, by rw [letters_ptr_zero]; rfl⟩
    | succ space => exact ⟨'!', by simp, by rw [letters_ptr_succ]; rfl⟩
  | memref elem => exact ⟨'m', by simp, by rw [letters_memref]; rfl⟩
  | array elem length => exact ⟨'!', by simp, by rw [letters_array]; rfl⟩
  | func inputs results => exact ⟨'(', by simp, by rw [letters_func]; rfl⟩

/-- Texts that start with types start with types of one sort, if they are equal. -/
theorem mark_eq_mark {s t : Ty} {as bs : List Char} (h : s.letters ++ as = t.letters ++ bs) :
    s.mark = t.mark := by
  have hmark := congrArg markIn h
  rw [markIn_letters, markIn_letters] at hmark
  exact Option.some.inj hmark

/-- A type does not start with a closing parenthesis. -/
theorem letters_append_ne (t : Ty) (as bs : List Char) : t.letters ++ as ≠ ')' :: bs := by
  intro h
  have hmark : some t.mark = some ')' := (markIn_letters t as).symm.trans (congrArg markIn h)
  cases t <;> cases hmark

/-- Only function types start with an opening parenthesis. -/
theorem exists_func_of_letters {t : Ty} {as bs : List Char} (h : t.letters ++ as = '(' :: bs) :
    ∃ inputs results, t = func inputs results := by
  have hmark : some t.mark = some '(' := (markIn_letters t as).symm.trans (congrArg markIn h)
  cases t with
  | func inputs results => exact ⟨inputs, results, rfl⟩
  | _ => cases hmark

/-- A type is all that a text with its printed form in front can start with: the text starts with no
other type, and with no list of types in parentheses. -/
structure Legible (s : Ty) : Prop where
  unique : ∀ {t as bs}, Closed as → Closed bs → s.letters ++ as = t.letters ++ bs → s = t ∧ as = bs
  unlike : ∀ {ts as bs}, Closed bs → s.letters ++ as ≠ '(' :: (lettersOf ts ++ ')' :: bs)

/-- In front of a closing parenthesis, a list of legible types is the only one.

**Proof sketch.** Induction on the first list.  A type is not a closing parenthesis, so both
lists are empty or neither is; the first types are equal by legibility, because what follows them
is closed, and behind them stands a comma or the end in both. -/
theorem lettersOf_append_inj {ss : List Ty} (hss : ∀ s ∈ ss, Legible s) {ts : List Ty}
    {as bs : List Char} (h : lettersOf ss ++ ')' :: as = lettersOf ts ++ ')' :: bs) :
    ss = ts ∧ as = bs := by
  have hclosed : ∀ (us : List Ty) (cs : List Char), Closed (lettersBehind us ++ ')' :: cs) := by
    rintro (_ | ⟨u, us⟩) cs <;> simp [Closed, lettersBehind]
  induction ss generalizing ts with
  | nil =>
    cases ts with
    | nil => exact ⟨rfl, (List.cons.inj h).2⟩
    | cons t ts =>
      rw [lettersOf_cons, List.append_assoc] at h
      exact absurd h.symm (letters_append_ne t _ _)
  | cons s ss ih =>
    obtain ⟨hs, hss⟩ := List.forall_mem_cons.1 hss
    cases ts with
    | nil =>
      rw [lettersOf_cons, List.append_assoc] at h
      exact absurd h (letters_append_ne s _ _)
    | cons t ts =>
      rw [lettersOf_cons, lettersOf_cons, List.append_assoc, List.append_assoc] at h
      obtain ⟨rfl, hrest⟩ := hs.unique (hclosed ss as) (hclosed ts bs) h
      match ss, ts with
      | [], [] => exact ⟨rfl, (List.cons.inj hrest).2⟩
      | [], _ :: _ => cases (List.cons.inj hrest).1
      | _ :: _, [] => cases (List.cons.inj hrest).1
      | u :: us, w :: ws =>
        obtain ⟨hlists, has⟩ := ih hss (List.cons.inj (List.cons.inj hrest).2).2
        exact ⟨congrArg (s :: ·) hlists, has⟩

/-- A function type does not start with a list of types in parentheses and something closed. -/
theorem unlike_func {inputs results : List Ty} (hinputs : ∀ s ∈ inputs, Legible s) {ts : List Ty}
    {as bs : List Char} (hbs : Closed bs) :
    (func inputs results).letters ++ as ≠ '(' :: (lettersOf ts ++ ')' :: bs) := by
  intro h
  rw [letters_func, List.cons_append, List.append_assoc] at h
  obtain ⟨-, rfl⟩ := lettersOf_append_inj hinputs (List.cons.inj h).2
  rcases hbs ' ' rfl with h | h | h <;> cases h

/-- Results are legible if the types of all results are.

**Proof sketch.** Results are one bare type or a list in parentheses.  Two bare types by
legibility, two lists by `lettersOf_append_inj`; a bare type that looks like a list would be a
function type, whose arrow is not closed. -/
theorem lettersOfResults_append_inj {rs : List Ty} (hrs : ∀ r ∈ rs, Legible r) {ss : List Ty}
    {as bs : List Char} (has : Closed as) (hbs : Closed bs)
    (h : lettersOfResults rs ++ as = lettersOfResults ss ++ bs) : rs = ss ∧ as = bs := by
  -- a list of results is one bare type, or is in parentheses
  have hcases : ∀ us, (∃ u, us = [u] ∧ lettersOfResults us = u.letters) ∨
      ∀ cs, lettersOfResults us ++ cs = '(' :: (lettersOf us ++ ')' :: cs) := by
    rintro (_ | ⟨u, _ | ⟨w, us⟩⟩)
    · exact .inr fun cs => rfl
    · exact .inl ⟨u, rfl, rfl⟩
    · exact .inr fun cs => by simp [lettersOfResults]
  rcases hcases rs with ⟨r, rfl, hr⟩ | hr <;> rcases hcases ss with ⟨s, rfl, hs⟩ | hs
  · rw [hr, hs] at h
    obtain ⟨rfl, hrest⟩ := (hrs r (by simp)).unique has hbs h
    exact ⟨rfl, hrest⟩
  · rw [hr, hs] at h
    exact absurd h ((hrs r (by simp)).unlike hbs)
  · -- here the list in parentheses is known to be legible, and the bare type need not be
    rw [hr, hs] at h
    obtain ⟨inputs, results, rfl⟩ := exists_func_of_letters h.symm
    rw [letters_func, List.cons_append, List.append_assoc] at h
    obtain ⟨-, rfl⟩ := lettersOf_append_inj hrs (List.cons.inj h).2
    rcases has ' ' rfl with h | h | h <;> cases h
  · rw [hr, hs] at h
    exact lettersOf_append_inj hrs (List.cons.inj h).2

/-- Only a function type may start with a list of types in parentheses. -/
theorem Legible.of_unique {s : Ty} (hs : ∀ inputs results, s ≠ func inputs results)
    (unique : ∀ {t as bs}, Closed as → Closed bs → s.letters ++ as = t.letters ++ bs →
      s = t ∧ as = bs) : Legible s where
  unique := unique
  unlike _ h := by
    obtain ⟨inputs, results, rfl⟩ := exists_func_of_letters h
    exact hs inputs results rfl

/-- An integer type is read in one way. -/
theorem legible_int (bits : Nat) : Legible (int bits) := by
  refine .of_unique (by simp) fun {t as bs} has hbs h => ?_
  have hmark := mark_eq_mark h
  cases t with
  | int bits' =>
    rw [letters_int, letters_int] at h
    obtain ⟨rfl, hrest⟩ := toDigits_append_inj has.isDigit hbs.isDigit (List.cons.inj h).2
    exact ⟨rfl, hrest⟩
  | _ => cases hmark

/-- A pointer is read in one way.

**Proof sketch.** Only a pointer starts like one (`mark_eq_mark`).  The address space zero is not
written, and what is closed does not open a bracket, so it is told from the others; of these the
digits are read up to the bracket. -/
theorem legible_ptr (space : Nat) : Legible (ptr space) := by
  refine .of_unique (by simp) fun {t as bs} has hbs h => ?_
  have hmark := mark_eq_mark h
  -- what is closed does not open a bracket for an address space
  have hopen : ∀ {cs ds : List Char}, Closed cs → ∀ n,
      "!llvm.ptr".toList ++ cs ≠ (ptr (n + 1)).letters ++ ds := by
    intro cs ds hcs n hn
    rw [letters_ptr_succ, List.append_assoc] at hn
    have hname : "!llvm.ptr".toList ++ cs = "!llvm.ptr".toList ++ _ := hn
    obtain rfl := List.append_cancel_left hname
    rcases hcs '<' rfl with h | h | h <;> cases h
  cases t with
  | ptr space' =>
    cases space with
    | zero =>
      cases space' with
      | zero => exact ⟨rfl, List.append_cancel_left h⟩
      | succ n => exact absurd (letters_ptr_zero ▸ h) (hopen has n)
    | succ k =>
      cases space' with
      | zero => exact absurd (letters_ptr_zero ▸ h.symm) (hopen hbs k)
      | succ n =>
        rw [letters_ptr_succ, letters_ptr_succ, List.append_assoc, List.append_assoc,
          List.append_assoc, List.append_assoc] at h
        obtain ⟨hn, hrest⟩ := toDigits_append_inj (by simp) (by simp) (List.append_cancel_left h)
        exact ⟨by rw [hn], (List.cons.inj hrest).2⟩
  | _ => cases hmark

/-- The type of a cell is read in one way if the type in it is. -/
theorem legible_memref {elem : Ty} (helem : Legible elem) : Legible (memref elem) := by
  refine .of_unique (by simp) fun {t as bs} has hbs h => ?_
  have hmark := mark_eq_mark h
  cases t with
  | memref elem' =>
    rw [letters_memref, letters_memref, List.append_assoc, List.append_assoc, List.append_assoc,
      List.append_assoc] at h
    obtain ⟨rfl, hclose⟩ := helem.unique (by simp [Closed]) (by simp [Closed])
      (List.append_cancel_left h)
    exact ⟨rfl, (List.cons.inj hclose).2⟩
  | _ => cases hmark

/-- An array type is read in one way if the type in it is. -/
theorem legible_array {elem : Ty} (helem : Legible elem) (length : Nat) :
    Legible (array elem length) := by
  refine .of_unique (by simp) fun {t as bs} has hbs h => ?_
  have hmark := mark_eq_mark h
  cases t with
  | array elem' length' =>
    rw [letters_array, letters_array, List.append_assoc, List.append_assoc, List.append_assoc,
      List.append_assoc] at h
    obtain ⟨rfl, hrest⟩ := toDigits_append_inj (by simp) (by simp) (List.append_cancel_left h)
    simp only [List.cons_append, List.append_assoc, List.cons.injEq, true_and] at hrest
    obtain ⟨rfl, hclose⟩ := helem.unique (by simp [Closed]) (by simp [Closed]) hrest
    exact ⟨rfl, (List.cons.inj hclose).2⟩
  | _ => cases hmark

/-- A function type is read in one way if the types in it are. -/
theorem legible_func {inputs results : List Ty} (hinputs : ∀ s ∈ inputs, Legible s)
    (hresults : ∀ s ∈ results, Legible s) : Legible (func inputs results) where
  unique := by
    intro t as bs has hbs h
    have hmark := mark_eq_mark h
    cases t with
    | func inputs' results' =>
      rw [letters_func, letters_func, List.cons_append, List.cons_append, List.append_assoc,
        List.append_assoc] at h
      obtain ⟨rfl, harrow⟩ := lettersOf_append_inj hinputs (List.cons.inj h).2
      have hresult : " -> ".toList ++ _ = " -> ".toList ++ _ := harrow
      obtain ⟨rfl, hrest⟩ := lettersOfResults_append_inj hresults has hbs
        (List.append_cancel_left hresult)
      exact ⟨rfl, hrest⟩
    | _ => cases hmark
  unlike := unlike_func hinputs

mutual

/-- **Every type is legible.** -/
theorem legible : ∀ t : Ty, Legible t
  | int bits => legible_int bits
  | ptr space => legible_ptr space
  | memref elem => legible_memref (legible elem)
  | array elem length => legible_array (legible elem) length
  | func inputs results => legible_func (legible_of_mem inputs) (legible_of_mem results)

/-- Every type of a list is legible. -/
theorem legible_of_mem : ∀ ts : List Ty, ∀ t ∈ ts, Legible t
  | [] => by simp
  | t :: ts => List.forall_mem_cons.2 ⟨legible t, legible_of_mem ts⟩

end

/-- Types with equal printed forms are equal. -/
theorem text_injective : Function.Injective text := fun s _ h =>
  ((legible s).unique closed_nil closed_nil (congrArg (· ++ []) (congrArg String.toList h))).1

end Ty

/-! ## Attributes -/

namespace Attr

/-- The letters of an attribute. -/
def letters (a : Attr) : List Char := a.text.toList

/-- The letters of an integer attribute. -/
theorem letters_int (value : Int) (ty : Ty) :
    (int value ty).letters = (toString value).toList ++ (" : ".toList ++ ty.letters) := by
  rw [letters, text, String.toList_append, String.toList_append, List.append_assoc]
  rfl

/-- The letters of a text attribute. -/
theorem letters_str (s : String) :
    (str s).letters = '\x22' :: ((Text.escape s).toList ++ ['\x22']) := by
  rw [letters, text, Text.quoted, String.toList_append, String.toList_append]
  rfl

/-- The letters of a symbol. -/
theorem letters_symbol (s : String) : (symbol s).letters = '@' :: s.toList := by
  rw [letters, text, String.toList_append]
  rfl

/-- The letters of a zero initializer. -/
theorem letters_zero (ty : Ty) : (zero ty).letters = "dense<0> : ".toList ++ ty.letters := by
  rw [letters, text, String.toList_append]
  rfl

/-- The letter by which the printed form of an attribute is told from those of other sorts. -/
def mark : Attr → Char
  | int .. => '0'
  | str _ => '\x22'
  | bool _ => 't'
  | symbol _ => '@'
  | type _ => 'i'
  | zero _ => 'd'

/-- The letter for the sort of attributes that start with a letter. -/
def markOf (c : Char) : Char :=
  if isIntLetter c then '0' else if c = 'f' then 't' else if c ∈ ['!', 'm', '('] then 'i' else c

/-- The first letter of an attribute tells of what sort it is.

**Proof sketch.** One case for each sort; an integer starts with a digit or a sign, and a type
with one of four letters. -/
theorem markOf_letters (a : Attr) : a.letters.head?.map markOf = some a.mark := by
  cases a with
  | int value ty =>
    obtain ⟨hne, hletters⟩ := isIntLetter_of_mem_toString (n := value)
    obtain ⟨c, cs, hc⟩ := List.exists_cons_of_ne_nil hne
    rw [letters_int, hc]
    exact congrArg some (if_pos (hletters c (hc ▸ List.mem_cons_self)))
  | str s => rw [letters_str]; rfl
  | bool b => cases b <;> decide
  | symbol s => rw [letters_symbol]; rfl
  | type ty =>
    obtain ⟨c, hc, hhead⟩ := ty.head?_letters
    have hmark : ∀ c ∈ ['i', '!', 'm', '('], markOf c = 'i' := by
      simp [markOf, isIntLetter, Char.isDigit]
    exact (congrArg (Option.map markOf) hhead).trans (congrArg some (hmark c hc))
  | zero ty => rw [letters_zero]; rfl

/-- Attributes with equal printed forms are equal.

**Proof sketch.** The first letter tells the sort (`markOf_letters`), so both attributes are of
one sort; within it the parts are read off, by the injectivity of numbers, escapes and types. -/
theorem text_injective : Function.Injective text := by
  intro a b h
  have hletters : a.letters = b.letters := congrArg String.toList h
  have hmark : some a.mark = some b.mark :=
    (markOf_letters a).symm.trans
      ((congrArg (·.head?.map markOf) hletters).trans (markOf_letters b))
  cases a with
  | int value ty =>
    cases b with
    | int value' ty' =>
      rw [letters_int, letters_int] at hletters
      obtain ⟨rfl, hty⟩ := toString_append_inj (by simp; decide) (by simp; decide) hletters
      rw [Ty.text_injective (String.toList_inj.1 (List.append_cancel_left hty))]
    | _ => cases hmark
  | str s =>
    cases b with
    | str t =>
      rw [letters_str, letters_str] at hletters
      have hescape := List.append_cancel_right (List.cons.inj hletters).2
      rw [Text.escape_injective (String.toList_inj.1 hescape)]
    | _ => cases hmark
  | bool x =>
    cases b with
    | bool y => cases x <;> cases y <;> first | rfl | cases hletters
    | _ => cases hmark
  | symbol s =>
    cases b with
    | symbol t =>
      rw [letters_symbol, letters_symbol] at hletters
      rw [String.toList_inj.1 (List.cons.inj hletters).2]
    | _ => cases hmark
  | type ty =>
    cases b with
    | type ty' => rw [Ty.text_injective h]
    | _ => cases hmark
  | zero ty =>
    cases b with
    | zero ty' =>
      rw [letters_zero, letters_zero] at hletters
      rw [Ty.text_injective (String.toList_inj.1 (List.append_cancel_left hletters))]
    | _ => cases hmark

end Attr

/-- **Types and attributes print unambiguously**: printed forms are equal only for equal types, and
only for equal attributes. -/
theorem text_eq_text_iff :
    (∀ s t : Ty, s.text = t.text ↔ s = t) ∧ ∀ a b : Attr, a.text = b.text ↔ a = b :=
  ⟨fun _ _ => Ty.text_injective.eq_iff, fun _ _ => Attr.text_injective.eq_iff⟩

/-- A bare result that is a function, and a list of results in parentheses. -/
example : (Ty.func [.int 1] [.func [.ptr 0] []]).text = "(i1) -> (!llvm.ptr) -> ()" ∧
    (Ty.func [.func [.int 1] [.ptr 0]] []).text = "((i1) -> !llvm.ptr) -> ()" := by decide +kernel

end ContractIR
