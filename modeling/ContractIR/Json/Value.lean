import ContractIR.Json.Range
import ContractIR.Json.Token

/-!
# JSON values

A value is a tree.  Strings and numbers are kept as lexemes, and the members of an object as they
were written: in order, with repetitions.

## Main definitions

* `ContractIR.Json` — values; `ofText`, `ofNat`, `ofInt` — values from data.
* `ContractIR.Json.member?` — a member of an object by its name.
* `ContractIR.Json.parse?` — the value that a text writes.
* `ContractIR.Json.render` — the text of a value.
* `ContractIR.Json.isSettled` — whether a value has a meaning throughout and is nested no deeper
  than a bound.
-/

set_option autoImplicit false

namespace ContractIR

/-- A JSON value. -/
inductive Json where
  | null
  | bool (value : Bool)
  | number (lexeme : String)
  | string (lexeme : String)
  | array (items : List Json)
  | object (members : List (String × Json))
deriving Inhabited

namespace Json

/-! ## Values from data -/

/-- A text as a value. -/
def ofText (s : String) : Json := .string (escaped s)

/-- A natural number as a value. -/
def ofNat (n : Nat) : Json := .number (toString n)

/-- An integer as a value. -/
def ofInt (n : Int) : Json := .number (toString n)

/-- Members with their names as texts. -/
def ofMembers (members : List (String × Json)) : Json :=
  .object (members.map fun e => (escaped e.1, e.2))

/-! ## Parts -/

/-- The first member of an object whose name is a given text. -/
def member? (j : Json) (name : String) : Option Json :=
  match j with
  | .object members => (members.find? fun e => unescape? e.1 == some name).map Prod.snd
  | _ => none

/-! ## Reading -/

/-- An array or object whose end is still to come, with the last part first. -/
inductive Frame where
  | array (items : List Json)
  | object (members : List (String × Json)) (key : String)

/-- What a reader waits for, inside the frames that are open, innermost first. -/
inductive Expect where
  | value (frames : List Frame)
  /-- The first item of an array, or its end. -/
  | itemOrEnd (frames : List Frame)
  /-- The first key of an object, or its end. -/
  | keyOrEnd (frames : List Frame)
  /-- A key behind a comma. -/
  | key (members : List (String × Json)) (frames : List Frame)
  | colon (members : List (String × Json)) (key : String) (frames : List Frame)
  /-- What follows a value. -/
  | next (value : Json) (frames : List Frame)

/-- Reads the token that starts a value. -/
def startValue (frames : List Frame) : Token → Option Expect
  | .null => some (.next .null frames)
  | .bool b => some (.next (.bool b) frames)
  | .number lexeme => some (.next (.number lexeme) frames)
  | .string lexeme => some (.next (.string lexeme) frames)
  | .openArray => some (.itemOrEnd frames)
  | .openObject => some (.keyOrEnd frames)
  | .closeArray | .closeObject | .comma | .colon => none

/-- Reads the token that follows a value. -/
def continueValue (value : Json) : List Frame → Token → Option Expect
  | .array items :: frames, .comma => some (.value (.array (value :: items) :: frames))
  | .array items :: frames, .closeArray =>
    some (.next (.array (value :: items).reverse) frames)
  | .object members key :: frames, .comma => some (.key ((key, value) :: members) frames)
  | .object members key :: frames, .closeObject =>
    some (.next (.object ((key, value) :: members).reverse) frames)
  | _, _ => none

/-- Reads one token. -/
def readToken (expect : Expect) (t : Token) : Option Expect :=
  match expect, t with
  | .value frames, t => startValue frames t
  | .itemOrEnd frames, .closeArray => some (.next (.array []) frames)
  | .itemOrEnd frames, t => startValue (.array [] :: frames) t
  | .keyOrEnd frames, .closeObject => some (.next (.object []) frames)
  | .keyOrEnd frames, .string key => some (.colon [] key frames)
  | .keyOrEnd _, _ => none
  | .key members frames, .string key => some (.colon members key frames)
  | .key _ _, _ => none
  | .colon members key frames, .colon => some (.value (.object members key :: frames))
  | .colon _ _ _, _ => none
  | .next value frames, t => continueValue value frames t

/-- Reads tokens one after the other. -/
def readTokens (expect : Expect) : List Token → Option Expect
  | [] => some expect
  | t :: ts =>
    match readToken expect t with
    | none => none
    | some expect => readTokens expect ts

/-- The value that a text writes. -/
def parse? (text : String) : Option Json :=
  match (tokens? text).bind (readTokens (.value [])) with
  | some (.next value []) => some value
  | _ => none

/-! ## Writing -/

mutual

/-- The tokens of a value, before those of `rest`. -/
def tokensOnto : Json → List Token → List Token
  | .null, rest => .null :: rest
  | .bool b, rest => .bool b :: rest
  | .number lexeme, rest => .number lexeme :: rest
  | .string lexeme, rest => .string lexeme :: rest
  | .array items, rest => .openArray :: itemsOnto true items rest
  | .object members, rest => .openObject :: membersOnto true members rest

/-- The tokens of items up to the end of their array; a comma stands before all but the first. -/
def itemsOnto : Bool → List Json → List Token → List Token
  | _, [], rest => .closeArray :: rest
  | first, j :: js, rest =>
    let tokens := tokensOnto j (itemsOnto false js rest)
    if first then tokens else .comma :: tokens

/-- The tokens of members up to the end of their object; a comma stands before all but the
first. -/
def membersOnto : Bool → List (String × Json) → List Token → List Token
  | _, [], rest => .closeObject :: rest
  | first, (key, j) :: members, rest =>
    let tokens := .string key :: .colon :: tokensOnto j (membersOnto false members rest)
    if first then tokens else .comma :: tokens

end

/-- The text of a value. -/
def render (j : Json) : String := (tokensOnto j []).foldl (fun s t => s ++ t.text) ""

/-! ## Meaning -/

/-- Whether every string of a value means a text, every number is in range, and arrays and objects
are nested at most `depth` deep. -/
def isSettled : Nat → Json → Bool
  | _, .null => true
  | _, .bool _ => true
  | _, .number lexeme => ((numeral? lexeme).map Numeral.isFinite).getD false
  | _, .string lexeme => (unescape? lexeme).isSome
  | 0, .array _ => false
  | depth + 1, .array items => items.all (isSettled depth)
  | 0, .object _ => false
  | depth + 1, .object members =>
    members.all fun e => (unescape? e.1).isSome && isSettled depth e.2

end Json

end ContractIR
