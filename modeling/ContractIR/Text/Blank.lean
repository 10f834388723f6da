/-!
# White space

The characters with the Unicode property `White_Space`, and the two operations that use them:
cutting white space off both ends of a text, and splitting a text into words.

## Main definitions

* `ContractIR.Text.isBlank` — the property.
* `ContractIR.Text.trim` — a text without the white space at its ends.
* `ContractIR.Text.words` — the maximal runs of characters that are not white space.
-/

set_option autoImplicit false

namespace ContractIR.Text

/-- The white-space characters: the ASCII controls from tab to carriage return, the blank, and
the next-line, no-break, ogham, typographic, separator and ideographic spaces. -/
def isBlank (c : Char) : Bool :=
  let n := c.toNat
  (0x9 ≤ n && n ≤ 0xd) || n == 0x20 || n == 0x85 || n == 0xa0 || n == 0x1680 ||
    (0x2000 ≤ n && n ≤ 0x200a) || n == 0x2028 || n == 0x2029 || n == 0x202f || n == 0x205f ||
    n == 0x3000

/-- The characters between the white space at both ends. -/
def trim (cs : List Char) : List Char :=
  ((cs.dropWhile isBlank).reverse.dropWhile isBlank).reverse

/-- Splits `cs` at white space; `word` holds the letters of the current word, last one first. -/
def wordsFrom : List Char → List Char → List String
  | [], [] => []
  | [], word => [String.ofList word.reverse]
  | c :: cs, word =>
    if isBlank c then
      if word.isEmpty then wordsFrom cs [] else String.ofList word.reverse :: wordsFrom cs []
    else wordsFrom cs (c :: word)

/-- The words of a text: the maximal runs of characters that are not white space. -/
def words (s : String) : List String := wordsFrom s.toList []

end ContractIR.Text
